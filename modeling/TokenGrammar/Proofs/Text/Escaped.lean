import Mathlib.Data.List.Forall2
import TokenGrammar.Text.Escaped

/-!
Escaped text can be read back: it is known from what is written where one character ends and which one it
was, so that a text between quotes is over at its first quote that is not escaped (`Text.quoted_cancel`).
What is proved of one character is proved from the forms in which characters are written
(`Text.Written`), not from the tables of those that can be shown.
-/

namespace TokenGrammar.Text

theorem eq_of_append_stop {α : Type} {stop : α} {xs ys rest rest' : List α} (hx : stop ∉ xs)
    (hy : stop ∉ ys) (h : xs ++ stop :: rest = ys ++ stop :: rest') : xs = ys ∧ rest = rest' := by
  induction xs generalizing ys with
  | nil =>
    cases ys with
    | nil => simpa using h
    | cons y ys =>
      simp only [List.nil_append, List.cons_append, List.cons.injEq] at h
      exact absurd (h.1 ▸ List.mem_cons_self) hy
  | cons x xs ih =>
    cases ys with
    | nil =>
      simp only [List.nil_append, List.cons_append, List.cons.injEq] at h
      exact absurd (h.1 ▸ List.mem_cons_self) hx
    | cons y ys =>
      simp only [List.cons_append, List.cons.injEq] at h
      obtain ⟨rfl, h⟩ := h
      rw [List.mem_cons, not_or] at hx hy
      obtain ⟨rfl, rfl⟩ := ih hx.2 hy.2 h
      exact ⟨rfl, rfl⟩

/-! Hexadecimal digits. -/

theorem notMem_hexDigits {c : Char} (h : ∀ d < 16, c ≠ Nat.digitChar d) (n : Nat) :
    c ∉ Nat.toDigits 16 n := by
  induction n using Nat.strongRecOn with
  | ind n ih =>
    by_cases hn : n < 16
    . rw [Nat.toDigits_of_lt_base hn, List.mem_singleton]
      exact h n hn
    . rw [Nat.toDigits_of_base_le (by decide) (by omega), List.mem_append, List.mem_singleton, not_or]
      exact ⟨ih (n / 16) (by omega), h (n % 16) (Nat.mod_lt n (by decide))⟩

def ofHexDigits (digits : List Char) : Nat :=
  digits.foldl (fun n c => 16 * n + (c.toNat - if c.isDigit then 48 else 87)) 0

theorem ofHexDigits_toDigits (n : Nat) : ofHexDigits (Nat.toDigits 16 n) = n := by
  have hdigit : ∀ d < 16, (Nat.digitChar d).toNat - (if (Nat.digitChar d).isDigit then 48 else 87) = d := by
    decide
  induction n using Nat.strongRecOn with
  | ind n ih =>
    by_cases hn : n < 16
    . rw [Nat.toDigits_of_lt_base hn]
      simpa only [ofHexDigits, List.foldl_cons, List.foldl_nil, Nat.mul_zero, Nat.zero_add] using hdigit n hn
    . rw [Nat.toDigits_of_base_le (by decide) (by omega)]
      have hhigh := ih (n / 16) (by omega)
      unfold ofHexDigits at hhigh ⊢
      rw [List.foldl_append, hhigh, List.foldl_cons, List.foldl_nil, hdigit _ (Nat.mod_lt n (by decide))]
      omega

/-! The forms of one character. -/

def shortEscapes : List (Char × Char) :=
  [('\x00', '0'), ('\t', 't'), ('\r', 'r'), ('\n', 'n'), ('\\', '\\'), ('"', '"'), ('\'', '\'')]

inductive Written : Char → List Char → Prop where
  | short {c d : Char} (h : (c, d) ∈ shortEscapes) : Written c ['\\', d]
  | codePoint (c : Char) : Written c (codePointEscape c)
  | plain {c : Char} (hslash : c ≠ '\\') (hquote : c ≠ '"') (hfeed : c ≠ '\n') (hreturn : c ≠ '\r') :
    Written c [c]

theorem escapeChar_written (style : EscapeStyle) (opening : Bool) (c : Char) :
    Written c (escapeChar style opening c) := by
  unfold escapeChar
  split
  . next hc => exact .short (by simp [hc, shortEscapes])
  split
  . next hc => exact .short (by simp [hc, shortEscapes])
  split
  . next hc => exact .short (by simp [hc, shortEscapes])
  split
  . next hc => exact .short (by simp [hc, shortEscapes])
  split
  . next hc =>
    simp only [Bool.or_eq_true, Bool.and_eq_true, decide_eq_true_eq] at hc
    rcases hc with (rfl | rfl) | ⟨rfl, _⟩
    . exact .short (by simp [shortEscapes])
    . exact .short (by simp [shortEscapes])
    . exact .short (by simp [shortEscapes])
  split
  . exact .codePoint c
  split
  . next hreturn hfeed hc _ _ =>
    simp only [Bool.or_eq_true, decide_eq_true_eq, not_or] at hc
    exact .plain hc.1.1 hc.1.2 hfeed hreturn
  . exact .codePoint c

variable {c d : Char} {w w' rest rest' : List Char}

theorem Written.lineFeed_notMem (h : Written c w) : '\n' ∉ w := by
  cases h with
  | short h =>
    have hall : ∀ e ∈ shortEscapes, e.2 ≠ '\n' := by decide
    simp [(hall _ h).symm]
  | codePoint =>
    have hdigits : '\n' ∉ Nat.toDigits 16 c.toNat := notMem_hexDigits (by decide) c.toNat
    simp [codePointEscape, hdigits]
  | plain _ _ hfeed _ => simpa using hfeed.symm

theorem codePointEscape_cancel (h : codePointEscape c ++ rest = codePointEscape d ++ rest') :
    c = d ∧ rest = rest' := by
  simp only [codePointEscape, List.append_assoc, List.cons_append, List.nil_append, List.cons.injEq,
    true_and] at h
  have hbrace : ∀ n, '\x7d' ∉ Nat.toDigits 16 n := notMem_hexDigits (by decide)
  obtain ⟨hdigits, hrest⟩ := eq_of_append_stop (hbrace c.toNat) (hbrace d.toNat) h
  have hcode : c.toNat = d.toNat := by
    rw [← ofHexDigits_toDigits c.toNat, hdigits, ofHexDigits_toDigits]
  exact ⟨Char.toNat_inj.1 hcode, hrest⟩

theorem eq_of_mem_shortEscapes {e e' : Char × Char} (h : e ∈ shortEscapes) (h' : e' ∈ shortEscapes)
    (heq : e.2 = e'.2) : e.1 = e'.1 := by
  have hall : ∀ e ∈ shortEscapes, ∀ e' ∈ shortEscapes, e.2 = e'.2 → e.1 = e'.1 := by decide
  exact hall e h e' h' heq

theorem ne_u_of_mem_shortEscapes (h : (c, d) ∈ shortEscapes) : d ≠ 'u' := by
  have hall : ∀ e ∈ shortEscapes, e.2 ≠ 'u' := by decide
  exact hall (c, d) h

theorem Written.cancel (h : Written c w) (h' : Written d w') (heq : w ++ rest = w' ++ rest') :
    c = d ∧ rest = rest' := by
  cases h with
  | short h =>
    cases h' with
    | short h' =>
      simp only [List.cons_append, List.nil_append, List.cons.injEq, true_and] at heq
      exact ⟨eq_of_mem_shortEscapes h h' heq.1, heq.2⟩
    | codePoint =>
      simp only [codePointEscape, List.cons_append, List.nil_append, List.cons.injEq, true_and] at heq
      exact absurd heq.1 (ne_u_of_mem_shortEscapes h)
    | plain hslash =>
      simp only [List.cons_append, List.cons.injEq] at heq
      exact absurd heq.1.symm hslash
  | codePoint =>
    cases h' with
    | short h' =>
      simp only [codePointEscape, List.cons_append, List.nil_append, List.cons.injEq, true_and] at heq
      exact absurd heq.1.symm (ne_u_of_mem_shortEscapes h')
    | codePoint => exact codePointEscape_cancel heq
    | plain hslash =>
      simp only [codePointEscape, List.cons_append, List.cons.injEq] at heq
      exact absurd heq.1.symm hslash
  | plain hslash =>
    cases h' with
    | short h' =>
      simp only [List.cons_append, List.cons.injEq] at heq
      exact absurd heq.1 hslash
    | codePoint =>
      simp only [codePointEscape, List.cons_append, List.cons.injEq] at heq
      exact absurd heq.1 hslash
    | plain =>
      simp only [List.cons_append, List.nil_append, List.cons.injEq] at heq
      exact heq

theorem Written.append_ne_quote (h : Written c w) : w ++ rest ≠ '"' :: rest' := by
  cases h with
  | short => simp
  | codePoint => simp [codePointEscape]
  | plain _ hquote => simp [hquote]

/-! Whole texts. -/

theorem escape_written (style : EscapeStyle) (text : List Char) :
    ∃ pieces, List.Forall₂ Written text pieces ∧ escape style text = pieces.flatten := by
  cases text with
  | nil => exact ⟨[], .nil, rfl⟩
  | cons c text =>
    refine ⟨escapeChar style true c :: text.map (escapeChar style false), ?_, ?_⟩
    . apply List.Forall₂.cons (escapeChar_written style true c)
      rw [List.forall₂_map_right_iff]
      exact List.forall₂_same.2 fun d _ => escapeChar_written style false d
    . rw [escape, List.flatten_cons, List.flatMap_def]

theorem cancel_before_quote {text text' : List Char} {pieces pieces' : List (List Char)}
    (h : List.Forall₂ Written text pieces) (h' : List.Forall₂ Written text' pieces')
    (heq : pieces.flatten ++ '"' :: rest = pieces'.flatten ++ '"' :: rest') :
    text = text' ∧ rest = rest' := by
  induction h generalizing text' pieces' with
  | nil =>
    cases h' with
    | nil => simpa using heq
    | cons hd _ =>
      rw [List.flatten_cons, List.append_assoc] at heq
      exact absurd heq.symm hd.append_ne_quote
  | cons hc _ ih =>
    cases h' with
    | nil =>
      rw [List.flatten_cons, List.append_assoc] at heq
      exact absurd heq hc.append_ne_quote
    | cons hd htail =>
      rw [List.flatten_cons, List.flatten_cons, List.append_assoc, List.append_assoc] at heq
      obtain ⟨rfl, heq⟩ := hc.cancel hd heq
      obtain ⟨rfl, rfl⟩ := ih htail heq
      exact ⟨rfl, rfl⟩

theorem toList_quoted (text : String) :
    (quoted text).toList = '"' :: (escape .listing text.toList ++ ['"']) := by
  rw [quoted, String.toList_ofList, List.cons_append]

theorem quoted_cancel {text text' : String}
    (h : (quoted text).toList ++ rest = (quoted text').toList ++ rest') : text = text' ∧ rest = rest' := by
  obtain ⟨pieces, hpieces, htext⟩ := escape_written .listing text.toList
  obtain ⟨pieces', hpieces', htext'⟩ := escape_written .listing text'.toList
  simp only [toList_quoted, htext, htext', List.cons_append, List.append_assoc, List.nil_append,
    List.cons.injEq, true_and] at h
  obtain ⟨heq, hrest⟩ := cancel_before_quote hpieces hpieces' h
  exact ⟨String.toList_inj.1 heq, hrest⟩

theorem lineFeed_notMem_flatten {text : List Char} {pieces : List (List Char)}
    (h : List.Forall₂ Written text pieces) : '\n' ∉ pieces.flatten := by
  induction h with
  | nil => simp
  | cons hc _ ih =>
    rw [List.flatten_cons, List.mem_append, not_or]
    exact ⟨hc.lineFeed_notMem, ih⟩

theorem lineFeed_notMem_quoted (text : String) : '\n' ∉ (quoted text).toList := by
  obtain ⟨pieces, hpieces, htext⟩ := escape_written .listing text.toList
  rw [toList_quoted, htext]
  simpa using lineFeed_notMem_flatten hpieces

end TokenGrammar.Text
