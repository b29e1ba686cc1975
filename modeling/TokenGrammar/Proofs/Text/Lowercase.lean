import TokenGrammar.Text.Alphabetic
import TokenGrammar.Text.Lowercase

/-!
Which texts are the same as an ASCII word when case is left out of account. Past ASCII only the Kelvin
sign maps to a single ASCII character, so that such a text is made of letters if the word is
(`Text.isAlphabetic_of_lowercaseAll`), and a word of one character without case is that text
(`Text.eq_of_lowercaseAll`).
-/

namespace TokenGrammar.Text

theorem lowercaseCode_cases (n : Nat) (runs : List (Nat × Nat × Nat × Nat)) :
    lowercaseCode n runs = n ∨
      ∃ first last step image, (first, last, step, image) ∈ runs ∧ first ≤ n ∧ n ≤ last ∧
        lowercaseCode n runs = image + (n - first) := by
  induction runs with
  | nil => exact Or.inl rfl
  | cons run runs ih =>
    obtain ⟨first, last, step, image⟩ := run
    unfold lowercaseCode
    split
    . exact Or.inl rfl
    . split
      . next hn hrun =>
        simp only [Bool.and_eq_true, decide_eq_true_eq] at hrun
        exact Or.inr ⟨first, last, step, image, by simp, by omega, hrun.1, rfl⟩
      . rcases ih with ih | ⟨first', last', step', image', hmem, ih⟩
        . exact Or.inl ih
        . exact Or.inr ⟨first', last', step', image', List.mem_cons_of_mem _ hmem, ih⟩

theorem lowercaseRuns_images : ∀ run ∈ lowercaseRuns,
    128 ≤ run.2.2.2 ∨ run.1 = 0x212a ∧ run.2.1 = 0x212a := by
  decide +kernel

theorem eq_kelvin_of_lowercaseCode {n : Nat} (hn : 128 ≤ n) (h : lowercaseCode n lowercaseRuns < 128) :
    n = 0x212a := by
  rcases lowercaseCode_cases n lowercaseRuns with heq | ⟨first, last, step, image, hmem, hfirst, hlast, heq⟩
  . omega
  . have := lowercaseRuns_images _ hmem
    dsimp only at this
    omega

theorem of_ascii {P : Char → Prop} (h : ∀ i : Fin 128, P (Char.ofNat i)) {c : Char}
    (hc : c.toNat < 128) : P c := by
  rw [← Char.ofNat_toNat c]
  exact h ⟨c.toNat, hc⟩

theorem toNat_ofNat_of_pos {n : Nat} (h : 0 < (Char.ofNat n).toNat) : (Char.ofNat n).toNat = n := by
  by_cases hv : n.isValidChar
  . have heq : Char.ofNat n = Char.ofNatAux n hv := dif_pos hv
    rw [heq]
    rfl
  . have heq : Char.ofNat n = '\x00' := dif_neg hv
    rw [heq] at h
    contradiction

theorem lowercase_ne_nil (c : Char) : lowercase c ≠ [] := by
  unfold lowercase
  split
  . simp
  . split
    . simp
    . simp

-- The only characters that can become a single ASCII character.
theorem lowercase_eq_singleton {c k : Char} (hpos : 0 < k.toNat) (hascii : k.toNat < 128)
    (h : lowercase c = [k]) : c.toNat < 128 ∧ c.toLower = k ∨ c = '\u212a' := by
  unfold lowercase at h
  split at h
  . next hc =>
    left
    simpa [hc] using h
  . next hc =>
    right
    split at h
    . simp at h
    . rw [List.cons.injEq] at h
      have hcode := toNat_ofNat_of_pos (h.1 ▸ hpos)
      rw [h.1] at hcode
      have hkelvin := eq_kelvin_of_lowercaseCode (by omega) (hcode ▸ hascii)
      rw [← Char.ofNat_toNat c, hkelvin]

theorem toLower_cases {c : Char} (hc : c.toNat < 128) :
    c.toLower = c ∧ c.toLower.isLower = false ∨ c.toLower.isLower = true ∧ isAlphabetic c = true := by
  apply of_ascii _ hc
  decide +kernel

theorem lt_of_isLower {k : Char} (h : k.isLower = true) : 0 < k.toNat ∧ k.toNat < 128 := by
  have hrange := Bool.and_eq_true_iff.1 h
  have h₁ : 97 ≤ k.toNat := of_decide_eq_true hrange.1
  have h₂ : k.toNat ≤ 122 := of_decide_eq_true hrange.2
  omega

theorem isAlphabetic_of_lowercase {c : Char} (h : ∀ k ∈ lowercase c, k.isLower = true) :
    isAlphabetic c = true := by
  have single {k : Char} (hk : lowercase c = [k]) : isAlphabetic c = true := by
    have hlower : k.isLower = true := by
      apply h
      rw [hk]
      simp
    obtain ⟨hpos, hascii⟩ := lt_of_isLower hlower
    rcases lowercase_eq_singleton hpos hascii hk with ⟨hc, rfl⟩ | rfl
    . rcases toLower_cases hc with ⟨_, hno⟩ | ⟨_, halpha⟩
      . simp [hlower] at hno
      . exact halpha
    . decide +kernel
  by_cases hdot : c = '\u0130'
  . subst hdot
    exact absurd (h '\u0307' (by decide)) (by decide)
  . by_cases hc : c.toNat < 128
    . exact single (by rw [lowercase, if_pos hc])
    . exact single (by rw [lowercase, if_neg hc, if_neg hdot])

theorem eq_of_lowercase {c k : Char} (hpos : 0 < k.toNat) (hascii : k.toNat < 128)
    (hlower : k.isLower = false) (h : lowercase c = [k]) : c = k := by
  rcases lowercase_eq_singleton hpos hascii h with ⟨hc, rfl⟩ | rfl
  . rcases toLower_cases hc with ⟨heq, _⟩ | ⟨hyes, _⟩
    . exact heq.symm
    . simp [hlower] at hyes
  . have hk : lowercase '\u212a' = ['k'] := by decide +kernel
    rw [hk, List.cons.injEq] at h
    rw [← h.1] at hlower
    exact absurd hlower (by decide)

theorem isAlphabetic_of_lowercaseAll {text word : List Char} (hword : ∀ k ∈ word, k.isLower = true)
    (h : lowercaseAll text = word) : ∀ c ∈ text, isAlphabetic c = true := by
  intro c hc
  apply isAlphabetic_of_lowercase
  intro k hk
  apply hword
  rw [← h]
  exact List.mem_flatMap.2 ⟨c, hc, hk⟩

theorem lowercaseAll_eq_nil {text : List Char} : lowercaseAll text = [] ↔ text = [] := by
  cases text with
  | nil => simp [lowercaseAll]
  | cons c cs => simp [lowercaseAll, lowercase_ne_nil]

theorem eq_of_lowercaseAll {text : List Char} {k : Char} (hpos : 0 < k.toNat) (hascii : k.toNat < 128)
    (hlower : k.isLower = false) (h : lowercaseAll text = [k]) : text = [k] := by
  cases text with
  | nil => simp [lowercaseAll] at h
  | cons c cs =>
    have h : lowercase c ++ lowercaseAll cs = [k] := h
    rcases List.append_eq_singleton_iff.1 h with ⟨hnil, _⟩ | ⟨hc, hcs⟩
    . exact absurd hnil (lowercase_ne_nil c)
    . rw [eq_of_lowercase hpos hascii hlower hc, lowercaseAll_eq_nil.1 hcs]

/-! Characters that differ only in the case of an ASCII letter. -/

theorem lt_of_isAlpha {c : Char} (h : c.isAlpha = true) : c.toNat < 128 := by
  rcases Bool.or_eq_true_iff.1 h with hupper | hlower
  . have hrange : c.toNat ≤ 90 := (of_decide_eq_true hupper).2
    omega
  . exact (lt_of_isLower hlower).2

theorem toLower_of_not_isAlpha {c : Char} (h : c.isAlpha = false) : c.toLower = c := by
  have hupper := (Bool.or_eq_false_iff.1 h).1
  exact dif_neg (of_decide_eq_false hupper)

theorem isAlpha_toLower (c : Char) : c.toLower.isAlpha = c.isAlpha := by
  cases h : c.isAlpha with
  | false => rw [toLower_of_not_isAlpha h, h]
  | true =>
    have hascii := lt_of_isAlpha h
    revert h
    apply of_ascii _ hascii
    decide +kernel

theorem eq_or_isAlpha_of_toLower {c d : Char} (h : c.toLower = d.toLower) :
    c = d ∨ c.isAlpha = true ∧ d.isAlpha = true := by
  have halpha : c.isAlpha = d.isAlpha := by rw [← isAlpha_toLower, h, isAlpha_toLower]
  cases hd : d.isAlpha with
  | true => exact Or.inr ⟨halpha.trans hd, rfl⟩
  | false =>
    rw [toLower_of_not_isAlpha (halpha.trans hd), toLower_of_not_isAlpha hd] at h
    exact Or.inl h

theorem lowercase_eq_of_toLower {c d : Char} (h : c.toLower = d.toLower) : lowercase c = lowercase d := by
  rcases eq_or_isAlpha_of_toLower h with rfl | ⟨hc, hd⟩
  . rfl
  . unfold lowercase
    rw [if_pos (lt_of_isAlpha hc), if_pos (lt_of_isAlpha hd), h]

theorem isAlphabetic_of_isAlpha {c : Char} (h : c.isAlpha = true) : isAlphabetic c = true := by
  unfold isAlphabetic
  rw [if_pos (lt_of_isAlpha h), h]

theorem isDigit_of_isAlpha {c : Char} (h : c.isAlpha = true) : c.isDigit = false := by
  have hascii := lt_of_isAlpha h
  revert h
  apply of_ascii _ hascii
  decide +kernel

end TokenGrammar.Text
