import TokenGrammar.Proofs.Reader.Replay

/-!
Which bytes are read without a failure. They are those that are the bytes of characters, one after the other,
and the characters are read back from them; of other bytes the characters come first that stand before the
first place where no character starts, and the read there fails (`Reader.readings_ofBytes`). A read tries bytes
in two ways, by the width that the first announces and by the ranges of those after it; `width?_eq_some_iff`
and `exists_encoded` say that together these leave the bytes of characters and no others.
-/

namespace TokenGrammar

namespace ByteSource

def WellFormed (data : List UInt8) : Prop :=
  ∃ text : List Char, data = text.flatMap String.utf8EncodeChar

def Announces (lead : UInt8) (width : Nat) : Prop :=
  ∃ c, (String.utf8EncodeChar c).head? = some lead ∧ (String.utf8EncodeChar c).length = width

/--
The bytes that a failing read takes, where `rest` comes after them, and the kind under which it fails. It takes
the first byte if no character starts with it, and else as many bytes as this announces, or all that are left
if these are fewer.
-/
inductive IllFormed : List UInt8 → List UInt8 → DeviceErrorKind → Prop where
  | lead {lead : UInt8} {rest : List UInt8} : (∀ c, (String.utf8EncodeChar c).head? ≠ some lead) →
    IllFormed [lead] rest .invalidData
  | truncated {lead : UInt8} {tail : List UInt8} {width : Nat} : Announces lead width →
    (lead :: tail).length < width → IllFormed (lead :: tail) [] .unexpectedEnd
  | sequence {lead : UInt8} {tail rest : List UInt8} {width : Nat} : Announces lead width →
    (lead :: tail).length = width → (∀ c, String.utf8EncodeChar c ≠ lead :: tail) →
    IllFormed (lead :: tail) rest .invalidData

/-! The bytes of a character, from the ranges in which they lie. -/

theorem exists_char {n : Nat} (h : n < 0xd800 ∨ 0xdfff < n ∧ n < 0x110000) : ∃ c : Char, c.toNat = n := by
  exact ⟨Char.ofNatAux n h, rfl⟩

theorem byte_eq (b : UInt8) {n : Nat} (h : n = b.toNat) : UInt8.ofNat n = b := by
  rw [← UInt8.toNat_inj, toNat_byte (h ▸ b.toNat_lt), h]

def IsContinuation (b : UInt8) : Prop :=
  0x80 ≤ b.toNat ∧ b.toNat ≤ 0xbf

section

variable {lead second third fourth : UInt8}

theorem exists_encoded_one (h : lead.toNat ≤ 0x7f) : ∃ c, String.utf8EncodeChar c = [lead] := by
  obtain ⟨c, hc⟩ := @exists_char lead.toNat (by omega)
  have hv : c.val.toNat = lead.toNat := hc
  refine ⟨c, ?_⟩
  unfold String.utf8EncodeChar
  dsimp only
  rw [hv, if_pos h, byte_eq lead rfl]

theorem exists_encoded_two (h : 0xc2 ≤ lead.toNat ∧ lead.toNat ≤ 0xdf) (hsecond : IsContinuation second) :
    ∃ c, String.utf8EncodeChar c = [lead, second] := by
  unfold IsContinuation at hsecond
  obtain ⟨c, hc⟩ := @exists_char (lead.toNat % 32 * 64 + second.toNat % 64) (by omega)
  have hv : c.val.toNat = lead.toNat % 32 * 64 + second.toNat % 64 := hc
  refine ⟨c, ?_⟩
  unfold String.utf8EncodeChar
  dsimp only
  rw [hv, if_neg (by omega), if_pos (by omega), byte_eq lead (by omega), byte_eq second (by omega)]

theorem exists_encoded_three (h : 0xe0 ≤ lead.toNat ∧ lead.toNat ≤ 0xef) (hsecond : IsContinuation second)
    (he0 : lead.toNat = 0xe0 → 0xa0 ≤ second.toNat) (hed : lead.toNat = 0xed → second.toNat ≤ 0x9f)
    (hthird : IsContinuation third) : ∃ c, String.utf8EncodeChar c = [lead, second, third] := by
  unfold IsContinuation at hsecond hthird
  obtain ⟨c, hc⟩ := @exists_char ((lead.toNat % 16 * 64 + second.toNat % 64) * 64 + third.toNat % 64)
    (by omega)
  have hv : c.val.toNat = (lead.toNat % 16 * 64 + second.toNat % 64) * 64 + third.toNat % 64 := hc
  refine ⟨c, ?_⟩
  unfold String.utf8EncodeChar
  dsimp only
  rw [hv, if_neg (by omega), if_neg (by omega), if_pos (by omega), byte_eq lead (by omega),
    byte_eq second (by omega), byte_eq third (by omega)]

theorem exists_encoded_four (h : 0xf0 ≤ lead.toNat ∧ lead.toNat ≤ 0xf4) (hsecond : IsContinuation second)
    (hf0 : lead.toNat = 0xf0 → 0x90 ≤ second.toNat) (hf4 : lead.toNat = 0xf4 → second.toNat ≤ 0x8f)
    (hthird : IsContinuation third) (hfourth : IsContinuation fourth) :
    ∃ c, String.utf8EncodeChar c = [lead, second, third, fourth] := by
  unfold IsContinuation at hsecond hthird hfourth
  obtain ⟨c, hc⟩ := @exists_char
    (((lead.toNat % 8 * 64 + second.toNat % 64) * 64 + third.toNat % 64) * 64 + fourth.toNat % 64) (by omega)
  have hv : c.val.toNat =
      ((lead.toNat % 8 * 64 + second.toNat % 64) * 64 + third.toNat % 64) * 64 + fourth.toNat % 64 := hc
  refine ⟨c, ?_⟩
  unfold String.utf8EncodeChar
  dsimp only
  rw [hv, if_neg (by omega), if_neg (by omega), if_neg (by omega), byte_eq lead (by omega),
    byte_eq second (by omega), byte_eq third (by omega), byte_eq fourth (by omega)]

theorem second_of_range (h : (secondRange lead).1 ≤ second ∧ second ≤ (secondRange lead).2) :
    IsContinuation second ∧ (lead.toNat = 0xe0 → 0xa0 ≤ second.toNat) ∧
      (lead.toNat = 0xed → second.toNat ≤ 0x9f) ∧ (lead.toNat = 0xf0 → 0x90 ≤ second.toNat) ∧
      (lead.toNat = 0xf4 → second.toNat ≤ 0x8f) := by
  simp only [secondRange, ← UInt8.toNat_inj, UInt8.le_iff_toNat_le] at h
  unfold IsContinuation
  repeat' split at h
  all_goals
    simp only [UInt8.reduceToNat] at *
    omega

theorem secondRange_le (lead : UInt8) : (secondRange lead).1 ≤ (secondRange lead).2 := by
  unfold secondRange
  repeat' split
  all_goals decide

theorem validTail_cons_iff {tail : List UInt8} :
    validTail lead (second :: tail) = (second :: tail).length ↔
      ((secondRange lead).1 ≤ second ∧ second ≤ (secondRange lead).2) ∧ ∀ b ∈ tail, IsContinuation b := by
  have hall : (tail.takeWhile fun b => 0x80 ≤ b && b ≤ 0xbf).length = tail.length ↔
      ∀ b ∈ tail, IsContinuation b := by
    have heq : (tail.takeWhile fun b => 0x80 ≤ b && b ≤ 0xbf).length = tail.length ↔
        (tail.takeWhile fun b => 0x80 ≤ b && b ≤ 0xbf) = tail :=
      ⟨(List.takeWhile_prefix _).eq_of_length, congrArg List.length⟩
    rw [heq, List.takeWhile_eq_self_iff]
    simp [IsContinuation, UInt8.le_iff_toNat_le]
  unfold validTail
  dsimp only
  split
  . next h =>
    simp only [Bool.and_eq_true, decide_eq_true_eq] at h
    rw [← hall, List.length_cons]
    simp only [h, and_self, true_and]
    omega
  . next h =>
    simp only [Bool.and_eq_true, decide_eq_true_eq] at h
    simp [h]

end

theorem width?_cases {lead : UInt8} {width : Nat} (h : width? lead = some width) :
    width = 1 ∧ lead.toNat ≤ 0x7f ∨ width = 2 ∧ (0xc2 ≤ lead.toNat ∧ lead.toNat ≤ 0xdf) ∨
      width = 3 ∧ (0xe0 ≤ lead.toNat ∧ lead.toNat ≤ 0xef) ∨
      width = 4 ∧ (0xf0 ≤ lead.toNat ∧ lead.toNat ≤ 0xf4) := by
  rw [width?_eq] at h
  repeat' split at h
  all_goals
    simp only [Option.some.injEq, reduceCtorEq] at h
    try omega

theorem exists_encoded {lead : UInt8} {tail : List UInt8} (hw : width? lead = some (tail.length + 1))
    (hv : validTail lead tail = tail.length) : ∃ c, String.utf8EncodeChar c = lead :: tail := by
  cases tail with
  | nil =>
    apply exists_encoded_one
    have hcases := width?_cases hw
    simp only [List.length_nil] at hcases
    omega
  | cons second tail =>
    obtain ⟨hrange, htail⟩ := validTail_cons_iff.1 hv
    obtain ⟨hsecond, he0, hed, hf0, hf4⟩ := second_of_range hrange
    have hcases := width?_cases hw
    match tail with
    | [] =>
      simp only [List.length_cons, List.length_nil] at hcases
      exact exists_encoded_two (by omega) hsecond
    | [third] =>
      simp only [List.length_cons, List.length_nil] at hcases
      exact exists_encoded_three (by omega) hsecond he0 hed (htail third (by simp))
    | [third, fourth] =>
      simp only [List.length_cons, List.length_nil] at hcases
      exact exists_encoded_four (by omega) hsecond hf0 hf4 (htail third (by simp)) (htail fourth (by simp))
    | _ :: _ :: _ :: more =>
      simp only [List.length_cons] at hcases
      omega

theorem width?_of_encoded {c : Char} {lead : UInt8} {tail : List UInt8}
    (h : String.utf8EncodeChar c = lead :: tail) : width? lead = some (tail.length + 1) := by
  obtain ⟨_, _, hc, hdecodes⟩ := decodes_encoded c
  obtain ⟨rfl, rfl⟩ := List.cons.inj (h.symm.trans hc)
  exact hdecodes.width

theorem width?_eq_some_iff {lead : UInt8} {width : Nat} : width? lead = some width ↔ Announces lead width := by
  constructor
  . intro h
    have hencoded (tail : List UInt8) (hw : width = tail.length + 1)
        (hv : validTail lead tail = tail.length) : Announces lead width := by
      obtain ⟨c, hc⟩ := exists_encoded (hw ▸ h) hv
      exact ⟨c, by simp [hc], by rw [hc, hw, List.length_cons]⟩
    have hrange : (secondRange lead).1 ≤ (secondRange lead).1 ∧ (secondRange lead).1 ≤ (secondRange lead).2 :=
      ⟨UInt8.le_refl _, secondRange_le lead⟩
    rcases width?_cases h with ⟨rfl, _⟩ | ⟨rfl, _⟩ | ⟨rfl, _⟩ | ⟨rfl, _⟩
    . exact hencoded [] rfl rfl
    . exact hencoded [(secondRange lead).1] rfl (validTail_cons_iff.2 ⟨hrange, by simp⟩)
    . exact hencoded [(secondRange lead).1, 0x80] rfl
        (validTail_cons_iff.2 ⟨hrange, by simp [IsContinuation]⟩)
    . exact hencoded [(secondRange lead).1, 0x80, 0x80] rfl
        (validTail_cons_iff.2 ⟨hrange, by simp [IsContinuation]⟩)
  . rintro ⟨c, hhead, hlength⟩
    cases hc : String.utf8EncodeChar c with
    | nil => simp [hc] at hhead
    | cons b tail =>
      obtain rfl : b = lead := by simpa [hc] using hhead
      rw [width?_of_encoded hc, ← hlength, hc, List.length_cons]

theorem width?_eq_none_iff {lead : UInt8} :
    width? lead = none ↔ ∀ c, (String.utf8EncodeChar c).head? ≠ some lead := by
  rw [Option.eq_none_iff_forall_ne_some]
  simp only [ne_eq, width?_eq_some_iff, Announces, not_exists, not_and]
  constructor
  . intro h c hc
    exact h _ c hc rfl
  . intro h width c hc
    exact absurd hc (h c)

theorem IllFormed.not_encoded {taken rest : List UInt8} {kind : DeviceErrorKind}
    (h : IllFormed taken rest kind) (c : Char) : ¬String.utf8EncodeChar c <+: taken ++ rest := by
  intro hprefix
  obtain ⟨b, tail, hc⟩ := List.exists_cons_of_ne_nil (String.utf8EncodeChar_ne_nil (c := c))
  -- Where the first byte is the same, the character has as many bytes as are announced.
  have hlength {lead : UInt8} {width : Nat} (hb : b = lead) (ha : Announces lead width) :
      (String.utf8EncodeChar c).length = width := by
    rw [← width?_eq_some_iff, ← hb, width?_of_encoded hc, Option.some.injEq] at ha
    rw [hc, List.length_cons, ha]
  have hhead {lead : UInt8} {more : List UInt8} (hp : String.utf8EncodeChar c <+: lead :: more) : b = lead := by
    rw [hc, List.cons_prefix_cons] at hp
    exact hp.1
  cases h with
  | lead hlead =>
    apply hlead c
    rw [hc, List.head?_cons, hhead hprefix]
  | truncated ha hlt =>
    have hle := hprefix.length_le
    rw [hlength (hhead hprefix) ha, List.append_nil] at hle
    omega
  | sequence ha hwidth hnone =>
    apply hnone c
    have hp := List.prefix_of_prefix_length_le hprefix (List.prefix_append _ _)
      (by rw [hlength (hhead hprefix) ha, hwidth])
    exact hp.eq_of_length (by rw [hlength (hhead hprefix) ha, hwidth])

inductive Takes : List UInt8 → List UInt8 → Read → Prop where
  | char (c : Char) (rest : List UInt8) : Takes (String.utf8EncodeChar c) rest (.char c)
  | fault {taken rest : List UInt8} {error : ReadError} : IllFormed taken rest error.kind →
    Takes taken rest (.fault error)

theorem Carries.decode_takes {data : List UInt8} (hne : data ≠ []) :
    ∃ taken rest read, data = taken ++ rest ∧ taken ≠ [] ∧ Takes taken rest read ∧
      ∀ {source : ByteSource}, Carries source data →
        ∃ source', source.decode = read :: source'.decode ∧ Carries source' rest := by
  obtain ⟨lead, data, rfl⟩ := List.exists_cons_of_ne_nil hne
  cases hw : width? lead with
  | none =>
    refine ⟨[lead], data, .fault (.badLead lead), rfl, by simp, .fault (.lead (width?_eq_none_iff.1 hw)), ?_⟩
    intro source h
    obtain ⟨source', hnext, hrest⟩ := h.next_badLead hw
    exact ⟨source', decode_of_fault hnext, hrest⟩
  | some width =>
    have ha := width?_eq_some_iff.1 hw
    by_cases hlt : data.length < width - 1
    . refine ⟨lead :: data, [], .fault .truncated, by simp, by simp, .fault (.truncated ha ?_), ?_⟩
      . rw [List.length_cons]
        omega
      . intro source h
        obtain ⟨source', hnext, hrest⟩ := h.next_truncated hw hlt
        exact ⟨source', decode_of_fault hnext, hrest⟩
    . have hlength : (data.take (width - 1)).length = width - 1 := by
        rw [List.length_take]
        omega
      have hwidth : (data.take (width - 1)).length + 1 = width := by
        have hpos := width?_cases hw
        rw [hlength]
        omega
      have hsplit : lead :: data = (lead :: data.take (width - 1)) ++ data.drop (width - 1) := by simp
      by_cases hv : validTail lead (data.take (width - 1)) = (data.take (width - 1)).length
      . obtain ⟨c, hc⟩ := exists_encoded (by rw [hw, hwidth]) hv
        refine ⟨String.utf8EncodeChar c, data.drop (width - 1), .char c, by rw [hc, hsplit],
          String.utf8EncodeChar_ne_nil, .char c _, ?_⟩
        intro source h
        rw [hsplit, ← hc] at h
        obtain ⟨source', hnext, hrest⟩ := h.next_encoded
        exact ⟨source', decode_of_char hnext, hrest⟩
      . have hfault : character lead (data.take (width - 1)) =
            .error (.badSequence (validTail lead (data.take (width - 1)) + 1)) := if_neg hv
        refine ⟨_, _, .fault (.badSequence (validTail lead (data.take (width - 1)) + 1)), hsplit, by simp,
          .fault (.sequence ha hwidth ?_), ?_⟩
        . intro c hc
          obtain ⟨_, _, hc', hdecodes⟩ := decodes_encoded c
          obtain ⟨rfl, htail⟩ := List.cons.inj (hc.symm.trans hc')
          exact hv (htail ▸ hdecodes.valid)
        . intro source h
          rw [hsplit] at h
          obtain ⟨source', hnext, hrest⟩ := h.next_character hw hlength
          rw [hfault] at hnext
          exact ⟨source', decode_of_fault hnext, hrest⟩

theorem Carries.decode_congr {source source' : ByteSource} {data : List UInt8} (h : Carries source data)
    (h' : Carries source' data) : source.decode = source'.decode := by
  induction hn : data.length using Nat.strongRecOn generalizing source source' data with
  | ind n ih =>
    by_cases hne : data = []
    . subst hne
      obtain ⟨_, hnext, _⟩ := h.next_nil
      obtain ⟨_, hnext', _⟩ := h'.next_nil
      rw [decode_of_end hnext, decode_of_end hnext']
    . obtain ⟨taken, rest, read, rfl, htaken, _, hreads⟩ := decode_takes hne
      obtain ⟨_, hdecode, hrest⟩ := hreads h
      obtain ⟨_, hdecode', hrest'⟩ := hreads h'
      have hpos := List.length_pos_iff.2 htaken
      rw [List.length_append] at hn
      rw [hdecode, hdecode', ih rest.length (by omega) hrest hrest' rfl]

end ByteSource

namespace Source

open ByteSource

theorem ofBytes_carries (data : List UInt8) : Carries (ByteSource.ofChunks [.bytes data]) data := by
  simpa [Chunk.data] using @ofChunks_carries [.bytes data] (by simp)

theorem ofBytes_encoded (text : List Char) : ofBytes (text.flatMap String.utf8EncodeChar) = text.map .char :=
  (ofBytes_carries _).decode_encoded

theorem ofBytes_takes {data : List UInt8} (hne : data ≠ []) :
    ∃ taken rest read, data = taken ++ rest ∧ taken ≠ [] ∧ ofBytes data = read :: ofBytes rest ∧
      Takes taken rest read := by
  obtain ⟨taken, rest, read, rfl, htaken, htakes, hreads⟩ := Carries.decode_takes hne
  obtain ⟨source, hdecode, hrest⟩ := hreads (ofBytes_carries _)
  refine ⟨taken, rest, read, rfl, htaken, ?_, htakes⟩
  unfold ofBytes ofChunks
  rw [hdecode, hrest.decode_congr (ofBytes_carries rest)]

theorem ofBytes_cases (data : List UInt8) :
    (∃ text : List Char, data = text.flatMap String.utf8EncodeChar) ∨
      ∃ (text : List Char) (taken rest : List UInt8) (error : ReadError),
        data = text.flatMap String.utf8EncodeChar ++ (taken ++ rest) ∧ taken ≠ [] ∧
        IllFormed taken rest error.kind ∧ ofBytes data = text.map .char ++ .fault error :: ofBytes rest := by
  induction hn : data.length using Nat.strongRecOn generalizing data with
  | ind n ih =>
    by_cases hne : data = []
    . exact Or.inl ⟨[], by simp [hne]⟩
    obtain ⟨taken, rest, read, rfl, htaken, hread, htakes⟩ := ofBytes_takes hne
    cases htakes with
    | fault hill => exact Or.inr ⟨[], taken, rest, _, by simp, htaken, hill, hread⟩
    | char c =>
      have hpos := List.length_pos_iff.2 htaken
      rw [List.length_append] at hn
      rcases ih rest.length (by omega) rest rfl with ⟨text, rfl⟩ | ⟨text, taken', rest', error, rfl, hne', hill, hrest⟩
      . exact Or.inl ⟨c :: text, by simp⟩
      . refine Or.inr ⟨c :: text, taken', rest', error, by simp, hne', hill, ?_⟩
        rw [hread, hrest]
        rfl

theorem length_ofBytes_le (data : List UInt8) : (ofBytes data).length ≤ data.length := by
  induction hn : data.length using Nat.strongRecOn generalizing data with
  | ind n ih =>
    by_cases hne : data = []
    . have hnil : ofBytes [] = [] := ofBytes_encoded []
      simp [hne, hnil]
    obtain ⟨taken, rest, read, rfl, htaken, hread, _⟩ := ofBytes_takes hne
    have hpos := List.length_pos_iff.2 htaken
    rw [List.length_append] at hn
    have hrest := ih rest.length (by omega) rest rfl
    rw [hread, List.length_cons]
    omega

end Source

namespace Reader

def readings (source : Source) (n : Nat) : List (Except ReadError (Option Char)) :=
  (ofSource source).answers (List.replicate n .read)

theorem answers_replicate (r : Reader) (n : Nat) :
    r.answers (List.replicate n .read) = readings r.upcoming n := by
  unfold readings
  induction n generalizing r with
  | zero => rfl
  | succ n ih =>
    obtain ⟨upcoming, last⟩ := r
    cases upcoming with
    | nil => rfl
    | cons read rest =>
      cases read with
      | char c => rfl
      | fault error => exact congrArg (.error error :: ·) (ih ⟨rest, last⟩)

theorem readings_char (c : Char) (rest : Source) (n : Nat) :
    readings (.char c :: rest) (n + 1) = .ok (some c) :: readings rest n := by
  rw [readings, List.replicate_succ, answers, answers_replicate]
  rfl

theorem readings_fault (error : ReadError) (rest : Source) (n : Nat) :
    readings (.fault error :: rest) (n + 1) = .error error :: readings rest n := by
  rw [readings, List.replicate_succ, answers, answers_replicate]
  rfl

theorem readings_nil (n : Nat) : readings [] n = List.replicate n (.ok none) := by
  induction n with
  | zero => rfl
  | succ n ih =>
    rw [readings, List.replicate_succ, answers, answers_replicate, List.replicate_succ, ← ih]
    rfl

theorem readings_chars (text : List Char) (rest : Source) (n : Nat) :
    readings (text.map .char ++ rest) (text.length + n) = text.map (.ok ∘ some) ++ readings rest n := by
  induction text with
  | nil => simp
  | cons c text ih =>
    rw [List.length_cons, Nat.add_right_comm, List.map_cons, List.cons_append, readings_char, ih]
    rfl

theorem readings_ok {source : Source} (h : ∀ error, .fault error ∉ source) (n : Nat) :
    ∀ answer ∈ readings source n, ∃ c, answer = .ok c := by
  induction n generalizing source with
  | zero => simp [readings, answers]
  | succ n ih =>
    cases source with
    | nil => simp [readings_nil]
    | cons read rest =>
      cases read with
      | fault error => exact absurd (List.mem_cons_self) (h error)
      | char c =>
        have hrest := @ih rest fun error hmem => h error (by simp [hmem])
        simpa [readings_char] using hrest

theorem readings_end (source : Source) (n : Nat) :
    ∃ early, early.length = source.length ∧
      readings source (source.length + n) = early ++ List.replicate n (.ok none) := by
  induction source with
  | nil => exact ⟨[], rfl, by simpa using readings_nil n⟩
  | cons read source ih =>
    obtain ⟨early, hlength, hearly⟩ := ih
    rw [List.length_cons, Nat.add_right_comm]
    cases read with
    | char c => exact ⟨.ok (some c) :: early, by simp [hlength], by rw [readings_char, hearly]; rfl⟩
    | fault error => exact ⟨.error error :: early, by simp [hlength], by rw [readings_fault, hearly]; rfl⟩

open ByteSource in
theorem readings_ofBytes (data : List UInt8) :
    (WellFormed data ↔ ∀ n, ∀ answer ∈ readings (.ofBytes data) n, ∃ c, answer = .ok c) ∧
    (∀ text : List Char, data = text.flatMap String.utf8EncodeChar → ∀ n,
      readings (.ofBytes data) (text.length + n) = text.map (.ok ∘ some) ++ List.replicate n (.ok none)) ∧
    (¬WellFormed data → ∃ (text : List Char) (taken rest : List UInt8) (error : ReadError),
      data = text.flatMap String.utf8EncodeChar ++ (taken ++ rest) ∧ taken ≠ [] ∧
      (∀ c, ¬String.utf8EncodeChar c <+: taken ++ rest) ∧ IllFormed taken rest error.kind ∧
      ∀ n, readings (.ofBytes data) (text.length + (n + 1)) =
        text.map (.ok ∘ some) ++ .error error :: readings (.ofBytes rest) n) ∧
    ∀ n, ∃ early, early.length = data.length ∧
      readings (.ofBytes data) (data.length + n) = early ++ List.replicate n (.ok none) := by
  have hchars (text : List Char) (hdata : data = text.flatMap String.utf8EncodeChar) (n : Nat) :
      readings (.ofBytes data) (text.length + n) =
        text.map (.ok ∘ some) ++ List.replicate n (.ok none) := by
    rw [hdata, Source.ofBytes_encoded, ← readings_nil, ← readings_chars, List.append_nil]
  have hfails (hill : ¬WellFormed data) : ∃ (text : List Char) (taken rest : List UInt8) (error : ReadError),
      data = text.flatMap String.utf8EncodeChar ++ (taken ++ rest) ∧ taken ≠ [] ∧
      (∀ c, ¬String.utf8EncodeChar c <+: taken ++ rest) ∧ IllFormed taken rest error.kind ∧
      ∀ n, readings (.ofBytes data) (text.length + (n + 1)) =
        text.map (.ok ∘ some) ++ .error error :: readings (.ofBytes rest) n := by
    rcases Source.ofBytes_cases data with hdata | ⟨text, taken, rest, error, hdata, hne, htaken, hreads⟩
    . exact absurd hdata hill
    . refine ⟨text, taken, rest, error, hdata, hne, htaken.not_encoded, htaken, ?_⟩
      intro n
      rw [hreads, readings_chars, readings_fault]
  refine ⟨⟨?_, ?_⟩, hchars, hfails, ?_⟩
  . rintro ⟨text, hdata⟩ n
    apply readings_ok
    rw [hdata, Source.ofBytes_encoded]
    simp
  . intro hall
    by_contra hill
    obtain ⟨text, taken, rest, error, _, _, _, _, hreads⟩ := hfails hill
    obtain ⟨c, hc⟩ := hall (text.length + 1) (.error error) (by rw [hreads 0]; simp)
    simp at hc
  . intro n
    obtain ⟨k, hk⟩ := Nat.exists_eq_add_of_le (Source.length_ofBytes_le data)
    obtain ⟨early, hlength, hearly⟩ := readings_end (.ofBytes data) (k + n)
    refine ⟨early ++ List.replicate k (.ok none), by simp [hlength, hk], ?_⟩
    rw [hk, Nat.add_assoc, hearly, List.append_assoc, List.replicate_append_replicate]

-- Between two characters the bytes of none, and then a byte that starts none and the start of one.
def mangledBytes : List UInt8 :=
  [0x61, 0xe2, 0x28, 0xa1, 0x62, 0xff, 0xf0, 0x9f]

theorem readings_ofBytes_mangledBytes :
    readings (.ofBytes mangledBytes) 6 =
        [.ok (some 'a'), .error (.badSequence 1), .ok (some 'b'), .error (.badLead 0xff), .error .truncated,
          .ok none] ∧
      ¬ByteSource.WellFormed mangledBytes ∧
      ∃ (text : List Char) (taken rest : List UInt8) (error : ReadError),
        mangledBytes = text.flatMap String.utf8EncodeChar ++ (taken ++ rest) ∧ taken ≠ [] ∧
        (∀ c, ¬String.utf8EncodeChar c <+: taken ++ rest) ∧ ByteSource.IllFormed taken rest error.kind ∧
        ∀ n, readings (.ofBytes mangledBytes) (text.length + (n + 1)) =
          text.map (.ok ∘ some) ++ .error error :: readings (.ofBytes rest) n := by
  obtain ⟨hiff, _, hfails, _⟩ := readings_ofBytes mangledBytes
  have hreadings : readings (.ofBytes mangledBytes) 6 =
      [.ok (some 'a'), .error (.badSequence 1), .ok (some 'b'), .error (.badLead 0xff), .error .truncated,
        .ok none] := by
    decide +kernel
  have hill : ¬ByteSource.WellFormed mangledBytes := by
    intro hwell
    obtain ⟨c, hc⟩ := hiff.1 hwell 6 (.error .truncated) (by simp [hreadings])
    simp at hc
  exact ⟨hreadings, hill, hfails hill⟩

end Reader

end TokenGrammar
