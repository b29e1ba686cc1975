import TokenGrammar.Command
import TokenGrammar.Proofs.Text.Escaped

/-!
The listing of the tokens of a document is one line for each token, whatever the texts of the tokens hold,
and what was listed can be read off it (`Command.lex_unambiguous`). A line is cut into its columns from
the left: the number of the line ends at the first blank after its digits, all kinds are as wide as each
other, and the text is over at its first quote that is not escaped.
-/

namespace TokenGrammar

theorem Text.notMem_digits {c : Char} (h : c.isDigit = false) (n : Nat) : c ∉ Nat.toDigits 10 n := by
  intro hmem
  rw [Nat.isDigit_of_mem_toDigits (by decide) (by decide) hmem] at h
  contradiction

theorem Decimal.lineFeed_notMem_text (d : Decimal) : '\n' ∉ d.text.toList := by
  have hdigits : '\n' ∉ Nat.toDigits 10 d.digits := Text.notMem_digits rfl d.digits
  unfold text
  split
  . simp [Text.fill, hdigits]
  . have hfilled : ∀ n, '\n' ∉ List.replicate n '0' ++ d.digits.repr.toList := by
      intro n
      simp [hdigits]
    dsimp only
    rw [String.toList_ofList, List.mem_append, List.mem_cons, not_or, not_or]
    refine ⟨?_, by decide, ?_⟩
    . intro h
      exact hfilled _ (List.mem_of_mem_take h)
    . intro h
      exact hfilled _ (List.mem_of_mem_drop h)

theorem Binary64.lineFeed_notMem_text (x : Binary64) : '\n' ∉ x.text.toList := by
  have hsign : '\n' ∉ (if x.bits.toNat < pow2 63 then "" else "-").toList := by
    split <;> decide
  unfold text
  dsimp only
  split
  . split
    . simp [hsign]
    . decide
  . split
    . simp [hsign]
    . simp [hsign, Decimal.lineFeed_notMem_text]

namespace Text

theorem toList_padLeft (width : Nat) (text : String) :
    (padLeft width text).toList = List.replicate (width - text.length) ' ' ++ text.toList := by
  simp [padLeft, fill]

theorem dropWhile_blanks {digits : List Char} (hne : digits ≠ []) (h : ' ' ∉ digits) (n : Nat)
    (rest : List Char) :
    (List.replicate n ' ' ++ (digits ++ rest)).dropWhile (· = ' ') = digits ++ rest := by
  induction n with
  | zero =>
    cases digits with
    | nil => contradiction
    | cons d digits =>
      have hd : d ≠ ' ' := fun hd => h (by simp [hd])
      simp [hd]
  | succ n ih => simpa [List.replicate_succ] using ih

theorem padLeft_cancel {width n m : Nat} {rest rest' : List Char}
    (h : (padLeft width n.repr).toList ++ ' ' :: rest = (padLeft width m.repr).toList ++ ' ' :: rest') :
    n = m ∧ rest = rest' := by
  have hdrop := congrArg (List.dropWhile (· = ' ')) h
  simp only [toList_padLeft, Nat.toList_repr, List.append_assoc] at hdrop
  rw [dropWhile_blanks Nat.toDigits_ne_nil (notMem_digits rfl n),
    dropWhile_blanks Nat.toDigits_ne_nil (notMem_digits rfl m)] at hdrop
  obtain ⟨hdigits, hrest⟩ := eq_of_append_stop (notMem_digits rfl n) (notMem_digits rfl m) hdrop
  refine ⟨?_, hrest⟩
  rw [← Nat.ofDigitChars_ten_toDigits (n := n), hdigits, Nat.ofDigitChars_ten_toDigits]

end Text

namespace TokenKind

theorem padded_length (kind : TokenKind) : (Text.padRight 18 kind.name).toList.length = 18 := by
  cases kind <;> rfl

theorem padded_injective {kind kind' : TokenKind}
    (h : (Text.padRight 18 kind.name).toList = (Text.padRight 18 kind'.name).toList) : kind = kind' := by
  revert h
  cases kind <;> cases kind' <;> decide

end TokenKind

namespace Token

def row (token : Token) : String :=
  Text.padLeft 4 token.line.repr ++ "  " ++ Text.padRight 18 token.kind.name ++ " " ++
    Text.quoted token.text ++ if token.kind = .number then " = " ++ token.value.text else ""

theorem listingLine_eq (token : Token) : token.listingLine = token.row ++ "\n" := by
  unfold listingLine row
  cases token.kind <;> simp [String.append_assoc]

theorem lineFeed_notMem_row (token : Token) : '\n' ∉ token.row.toList := by
  have hline : '\n' ∉ Nat.toDigits 10 token.line := Text.notMem_digits rfl token.line
  have hkind : '\n' ∉ (Text.padRight 18 token.kind.name).toList := by
    cases token.kind <;> decide
  have htext := Text.lineFeed_notMem_quoted token.text
  have hvalue : '\n' ∉ (if token.kind = .number then " = " ++ token.value.text else "").toList := by
    split
    . simp [Binary64.lineFeed_notMem_text]
    . simp
  simp [row, Text.toList_padLeft, hline, hkind, htext, hvalue]

theorem row_injective {token token' : Token} (h : token.row = token'.row) :
    token.line = token'.line ∧ token.kind = token'.kind ∧ token.text = token'.text := by
  have hblank : " ".toList = [' '] := rfl
  have hblanks : "  ".toList = [' ', ' '] := rfl
  have hchars := congrArg String.toList h
  simp only [row, String.toList_append, List.append_assoc, hblank, hblanks, List.cons_append,
    List.nil_append] at hchars
  obtain ⟨hline, hchars⟩ := Text.padLeft_cancel hchars
  have hwidth : (Text.padRight 18 token.kind.name).toList.length =
      (Text.padRight 18 token'.kind.name).toList.length := by
    rw [TokenKind.padded_length, TokenKind.padded_length]
  obtain ⟨hkind, hchars⟩ := List.append_inj (List.cons.inj hchars).2 hwidth
  obtain ⟨htext, _⟩ := Text.quoted_cancel (List.cons.inj hchars).2
  exact ⟨hline, TokenKind.padded_injective hkind, htext⟩

end Token

theorem eq_of_terminated {rows rows' : List String} (h : ∀ row ∈ rows, '\n' ∉ row.toList)
    (h' : ∀ row ∈ rows', '\n' ∉ row.toList)
    (heq : String.join (rows.map (· ++ "\n")) = String.join (rows'.map (· ++ "\n"))) : rows = rows' := by
  rw [← String.toList_inj, String.toList_join, String.toList_join] at heq
  induction rows generalizing rows' with
  | nil =>
    cases rows' with
    | nil => rfl
    | cons row' rows' => simp at heq
  | cons row rows ih =>
    cases rows' with
    | nil => simp at heq
    | cons row' rows' =>
      have hfeed : "\n".toList = ['\n'] := rfl
      simp only [List.map_cons, List.flatMap_cons, String.toList_append, hfeed, List.append_assoc,
        List.cons_append, List.nil_append] at heq
      rw [List.forall_mem_cons] at h h'
      obtain ⟨hrow, hrest⟩ := Text.eq_of_append_stop h.1 h'.1 heq
      rw [String.toList_inj.1 hrow, ih h.2 h'.2 hrest]

namespace Listing

def tokens (config : Config) (source : Source) : List Token :=
  (Tokenizer.ofSource config source).readAll.tokens.filter fun token => !token.isEndOfStream

theorem text_eq (config : Config) (source : Source) :
    (ofSource config source).text =
      String.join (((tokens config source).map Token.row).map (· ++ "\n")) := by
  have hrow : Token.listingLine = (· ++ "\n") ∘ Token.row := funext Token.listingLine_eq
  unfold ofSource text tokens
  dsimp only
  rw [List.map_map, hrow]

theorem lineFeed_notMem_rows (config : Config) (source : Source) :
    ∀ row ∈ (tokens config source).map Token.row, '\n' ∉ row.toList := by
  intro row hrow
  obtain ⟨token, _, rfl⟩ := List.mem_map.1 hrow
  exact token.lineFeed_notMem_row

end Listing

namespace Command

theorem lex_output {config : Config} {source : Source} {room : Option Nat}
    (h : ∀ error, (lex config source room).1 ≠ .error (.output error)) :
    (lex config source room).2 = (Listing.ofSource config source).text.toUTF8 := by
  unfold lex at h ⊢
  dsimp only at h ⊢
  generalize Listing.ofSource config source = listing at h ⊢
  cases room with
  | none =>
    simp only [Output.write]
    split <;> rfl
  | some room =>
    simp only [Output.write] at h ⊢
    by_cases hroom : listing.text.utf8ByteSize ≤ room
    . simp only [hroom, ↓reduceIte]
      split <;> rfl
    . simp [hroom] at h

theorem lex_count {config : Config} {source : Source} {room : Option Nat} {count : Nat}
    {output : ByteArray} (h : lex config source room = (.ok count, output)) :
    count = (Listing.ofSource config source).lines.length := by
  unfold lex at h
  dsimp only at h
  split at h
  . simp at h
  . split at h
    . simp at h
    . simpa using (congrArg Prod.fst h).symm

/--
A listing that is written to its end has as many lines as tokens are counted, one for each token and in
their order, and no token breaks its line. Whenever two runs write the same, be it for different sources
and under different settings, they have listed tokens of the same lines, kinds and texts; this holds also
for runs that a fault ends, but not where the device has cut off the listing.
-/
theorem lex_unambiguous (config : Config) (source : Source) (room : Option Nat) :
    (∀ count output, lex config source room = (.ok count, output) →
      ∃ rows : List String, rows.length = count ∧ (∀ row ∈ rows, '\n' ∉ row.toList) ∧
        output = (String.join (rows.map (· ++ "\n"))).toUTF8 ∧
        rows.map (· ++ "\n") = (Listing.tokens config source).map Token.listingLine) ∧
    ∀ (config' : Config) (source' : Source) (room' : Option Nat),
      (∀ error, (lex config source room).1 ≠ .error (.output error)) →
      (∀ error, (lex config' source' room').1 ≠ .error (.output error)) →
      (lex config source room).2 = (lex config' source' room').2 →
      (Listing.tokens config source).map (fun token => (token.line, token.kind, token.text)) =
        (Listing.tokens config' source').map fun token => (token.line, token.kind, token.text) := by
  constructor
  . intro count output h
    refine ⟨(Listing.tokens config source).map Token.row, ?_, ?_, ?_, ?_⟩
    . rw [lex_count h, List.length_map]
      simp [Listing.ofSource, Listing.tokens]
    . exact Listing.lineFeed_notMem_rows config source
    . have hend : ∀ error, (lex config source room).1 ≠ .error (.output error) := by simp [h]
      rw [← Listing.text_eq, ← lex_output hend, h]
    . rw [List.map_map]
      exact List.map_congr_left fun token _ => token.listingLine_eq.symm
  . intro config' source' room' h h' heq
    rw [lex_output h, lex_output h', Listing.text_eq, Listing.text_eq] at heq
    have hrows := eq_of_terminated (Listing.lineFeed_notMem_rows config source)
      (Listing.lineFeed_notMem_rows config' source') (String.toByteArray_inj.1 heq)
    rw [← List.forall₂_eq_eq_eq, List.forall₂_map_left_iff, List.forall₂_map_right_iff] at hrows ⊢
    apply hrows.imp
    intro token token' hrow
    obtain ⟨hline, hkind, htext⟩ := Token.row_injective hrow
    rw [hline, hkind, htext]

def brokenString : Source := .ofText "\"a\nb\\\"\" 1.50"

def commentedString : Source := .ofText "\"a\nb\\\"\" /* \" */ 1.50"

theorem lex_unambiguous_brokenString :
    (Listing.ofSource {} brokenString).lines =
      ["   1  string             \"\\\"a\\nb\\\\\\\"\\\"\"\n", "   2  number             \"1.50\" = 1.5\n"] ∧
    (∃ output, lex {} brokenString none = (.ok 2, output) ∧
      lex { blockComment := some ("/*", "*/") } commentedString (some 200) = (.ok 2, output)) ∧
    (Listing.tokens {} brokenString).map (fun token => (token.line, token.kind, token.text)) =
      (Listing.tokens { blockComment := some ("/*", "*/") } commentedString).map
        fun token => (token.line, token.kind, token.text) := by
  have hlisting : Listing.ofSource {} brokenString =
      ⟨["   1  string             \"\\\"a\\nb\\\\\\\"\\\"\"\n", "   2  number             \"1.50\" = 1.5\n"],
        none⟩ := by
    decide +kernel
  have hsame : Listing.ofSource { blockComment := some ("/*", "*/") } commentedString =
      Listing.ofSource {} brokenString := by
    decide +kernel
  have hlex : lex {} brokenString none = (.ok 2, (Listing.ofSource {} brokenString).text.toUTF8) := by
    simp [lex, Output.write, hlisting]
  have hlex' : lex { blockComment := some ("/*", "*/") } commentedString (some 200) =
      (.ok 2, (Listing.ofSource {} brokenString).text.toUTF8) := by
    have hroom : (Listing.ofSource {} brokenString).text.utf8ByteSize ≤ 200 := by
      rw [hlisting]
      decide
    simp only [lex, Output.write, hsame, hroom, ↓reduceIte]
    rw [hlisting]
    rfl
  refine ⟨by rw [hlisting], ⟨_, hlex, hlex'⟩, ?_⟩
  apply (lex_unambiguous {} brokenString none).2 { blockComment := some ("/*", "*/") } commentedString
    (some 200)
  . simp [hlex]
  . simp [hlex']
  . rw [hlex, hlex']

end Command

end TokenGrammar
