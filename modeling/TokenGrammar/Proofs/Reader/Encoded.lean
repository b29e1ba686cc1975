import Mathlib.Data.List.Basic
import Mathlib.Data.List.TakeWhile
import TokenGrammar.ByteSource

/-!
The bytes of a text, read as UTF-8, are the text (`ByteSource.Carries.decode_encoded`), in whatever buffers
they come and however often the device is interrupted. What a device must keep to is `EmptyAtEnd`. Two
things are apart here: what reads make of the buffers (`Carries.next_character` and the two before it), and
that the bytes of a character stand for it (`decodes_encoded`), with one lemma for each number of bytes.
-/

namespace TokenGrammar

def Chunk.data : Chunk → List UInt8
  | bytes data => data
  | failure _ => []

def Chunk.Idle : Chunk → Prop
  | bytes data => data = []
  | failure error => error.kind = .interrupted

namespace ByteSource

/-- The contract of a device: after an empty buffer there is nothing more to come. -/
def EmptyAtEnd (source : ByteSource) : Prop :=
  source.Pairwise fun chunk later => chunk = .bytes [] → later.Idle

theorem emptyAtEnd_ofChunks (chunks : List Chunk) : (ofChunks chunks).EmptyAtEnd := by
  apply List.pairwise_of_forall_mem_list
  intro chunk hmem later _ hempty
  simp [ofChunks, hempty] at hmem

theorem flatMap_data_ofChunks (chunks : List Chunk) :
    (ofChunks chunks).flatMap Chunk.data = chunks.flatMap Chunk.data := by
  induction chunks with
  | nil => rfl
  | cons chunk chunks ih =>
    unfold ofChunks at ih ⊢
    by_cases h : chunk = .bytes []
    . rw [List.filter_cons_of_neg (by simp [h]), ih, h]
      rfl
    . rw [List.filter_cons_of_pos (by simp [h]), List.flatMap_cons, ih, List.flatMap_cons]

structure Carries (source : ByteSource) (data : List UInt8) : Prop where
  bytes : source.flatMap Chunk.data = data
  failures : ∀ error, .failure error ∈ source → error.kind = .interrupted
  ending : source.EmptyAtEnd

theorem ofChunks_carries {chunks : List Chunk}
    (h : ∀ error, .failure error ∈ chunks → error.kind = .interrupted) :
    Carries (ofChunks chunks) (chunks.flatMap Chunk.data) := by
  refine ⟨flatMap_data_ofChunks chunks, ?_, emptyAtEnd_ofChunks chunks⟩
  intro error hmem
  exact h error (List.mem_of_mem_filter hmem)

namespace Carries

variable {source : ByteSource} {data : List UInt8}

theorem tail {chunk : Chunk} (h : Carries (chunk :: source) data) :
    ∃ more, data = chunk.data ++ more ∧ Carries source more := by
  refine ⟨source.flatMap Chunk.data, ?_, rfl, ?_, (List.pairwise_cons.1 h.ending).2⟩
  . rw [← h.bytes, List.flatMap_cons]
  . intro error hmem
    exact h.failures error (List.mem_cons_of_mem _ hmem)

theorem cons {more : List UInt8} (h : Carries source data) (hne : more ≠ []) :
    Carries (.bytes more :: source) (more ++ data) := by
  refine ⟨by rw [List.flatMap_cons, h.bytes]; rfl, ?_, ?_⟩
  . intro error hmem
    exact h.failures error (by simpa using hmem)
  . exact List.pairwise_cons.2 ⟨fun _ _ hempty => absurd (Chunk.bytes.inj hempty) hne, h.ending⟩

theorem eq_nil_of_empty (h : Carries (.bytes [] :: source) data) : data = [] := by
  have hidle := (List.pairwise_cons.1 h.ending).1
  rw [← h.bytes, List.flatMap_eq_nil_iff]
  intro chunk hmem
  rcases List.mem_cons.1 hmem with rfl | hmem
  . rfl
  . have := hidle chunk hmem rfl
    cases chunk with
    | bytes data => exact this
    | failure error => rfl

theorem readByte_cons {b : UInt8} (h : Carries source (b :: data)) :
    ∃ rest, source.readByte = (.ok (some b), rest) ∧ Carries rest data := by
  induction source with
  | nil => simpa using h.bytes
  | cons chunk source ih =>
    obtain ⟨more, hdata, htail⟩ := h.tail
    match chunk with
    | .bytes [] => simpa using h.eq_nil_of_empty
    | .bytes (x :: front) =>
      obtain ⟨rfl, rfl⟩ := List.cons.inj hdata
      refine ⟨_, readByte_bytes b front source, ?_⟩
      split
      . next hfront => simpa [hfront] using htail
      . next hfront => exact htail.cons hfront
    | .failure error =>
      rw [readByte_failure, if_pos (h.failures error List.mem_cons_self)]
      exact ih (hdata ▸ htail)

theorem readByte_nil (h : Carries source []) :
    ∃ rest, source.readByte = (.ok none, rest) ∧ Carries rest [] := by
  induction source with
  | nil => exact ⟨[], ByteSource.readByte_nil, h⟩
  | cons chunk source ih =>
    obtain ⟨more, hdata, htail⟩ := h.tail
    obtain ⟨hchunk, rfl⟩ := List.nil_eq_append_iff.1 hdata
    match chunk with
    | .bytes [] => exact ⟨source, readByte_empty source, htail⟩
    | .bytes (x :: front) => simp [Chunk.data] at hchunk
    | .failure error =>
      rw [readByte_failure, if_pos (h.failures error List.mem_cons_self)]
      exact ih htail

theorem takeBytes_append {front : List UInt8} (h : Carries source (front ++ data)) :
    ∃ rest, takeBytes front.length source = (.ok front, rest) ∧ Carries rest data := by
  induction front generalizing source with
  | nil => exact ⟨source, rfl, h⟩
  | cons b front ih =>
    obtain ⟨rest, hbyte, hrest⟩ := h.readByte_cons
    obtain ⟨rest', htake, hrest'⟩ := ih hrest
    refine ⟨rest', ?_, hrest'⟩
    simp only [List.length_cons, takeBytes, hbyte, htake]
    rfl

theorem takeBytes_of_length_lt {n : Nat} (h : Carries source data) (hlt : data.length < n) :
    ∃ rest, takeBytes n source = (.error .truncated, rest) ∧ Carries rest [] := by
  induction data generalizing source n with
  | nil =>
    obtain ⟨n, rfl⟩ := Nat.exists_eq_add_one_of_ne_zero (Nat.ne_of_gt hlt)
    obtain ⟨rest, hbyte, hrest⟩ := h.readByte_nil
    exact ⟨rest, by simp only [takeBytes, hbyte], hrest⟩
  | cons b data ih =>
    obtain ⟨n, rfl⟩ := Nat.exists_eq_add_one_of_ne_zero (Nat.ne_of_gt (Nat.zero_lt_of_lt hlt))
    obtain ⟨rest, hbyte, hrest⟩ := h.readByte_cons
    obtain ⟨rest', htake, hrest'⟩ := ih hrest (Nat.lt_of_succ_lt_succ hlt)
    refine ⟨rest', ?_, hrest'⟩
    simp only [takeBytes, hbyte, htake]
    rfl

/-! The next character, by what the lead byte announces. -/

theorem next_nil (h : Carries source []) :
    ∃ rest, source.next = (.ok none, rest) ∧ Carries rest [] := by
  obtain ⟨rest, hbyte, hrest⟩ := h.readByte_nil
  exact ⟨rest, by simp only [next, hbyte], hrest⟩

theorem next_badLead {lead : UInt8} (h : Carries source (lead :: data)) (hw : width? lead = none) :
    ∃ rest, source.next = (.error (.badLead lead), rest) ∧ Carries rest data := by
  obtain ⟨rest, hbyte, hrest⟩ := h.readByte_cons
  exact ⟨rest, by simp only [next, hbyte, hw], hrest⟩

theorem next_truncated {lead : UInt8} {width : Nat} (h : Carries source (lead :: data))
    (hw : width? lead = some width) (hlt : data.length < width - 1) :
    ∃ rest, source.next = (.error .truncated, rest) ∧ Carries rest [] := by
  obtain ⟨rest, hbyte, hrest⟩ := h.readByte_cons
  obtain ⟨rest', htake, hrest'⟩ := hrest.takeBytes_of_length_lt hlt
  exact ⟨rest', by simp only [next, hbyte, hw, htake], hrest'⟩

theorem next_character {lead : UInt8} {tail : List UInt8} {width : Nat}
    (h : Carries source (lead :: (tail ++ data))) (hw : width? lead = some width)
    (hlength : tail.length = width - 1) :
    ∃ rest, source.next = ((character lead tail).map some, rest) ∧ Carries rest data := by
  obtain ⟨rest, hbyte, hrest⟩ := h.readByte_cons
  obtain ⟨rest', htake, hrest'⟩ := hrest.takeBytes_append
  rw [hlength] at htake
  exact ⟨rest', by simp only [next, hbyte, hw, htake], hrest'⟩

end Carries

/-! The reads of a whole stream. -/

theorem decode_go_eq (reads : Source) (source : ByteSource) :
    decode.go reads source = reads.reverse ++ decode source := by
  unfold decode
  induction hn : source.size using Nat.strongRecOn generalizing reads source with
  | ind n ih =>
    rw [decode.go, decode.go.eq_def []]
    split
    . simp
    . next c rest heq =>
      have hlt := next_size_lt heq (by simp)
      rw [ih _ (by omega) (.char c :: reads) rest rfl, ih _ (by omega) [.char c] rest rfl]
      simp
    . next error rest heq =>
      have hlt := next_size_lt heq (by simp)
      rw [ih _ (by omega) (.fault error :: reads) rest rfl, ih _ (by omega) [.fault error] rest rfl]
      simp

section

variable {source rest : ByteSource}

theorem decode_of_end (h : source.next = (.ok none, rest)) : decode source = [] := by
  unfold decode
  rw [decode.go]
  split <;> simp_all

theorem decode_of_char {c : Char} (h : source.next = (.ok (some c), rest)) :
    decode source = .char c :: decode rest := by
  conv => lhs; unfold decode
  rw [decode.go]
  split <;> simp_all [decode_go_eq]

theorem decode_of_fault {error : ReadError} (h : source.next = (.error error, rest)) :
    decode source = .fault error :: decode rest := by
  conv => lhs; unfold decode
  rw [decode.go]
  split <;> simp_all [decode_go_eq]

end

/-! The bytes of a character stand for it. -/

def continuation (n : Nat) : UInt8 :=
  UInt8.ofNat (n % 0x40 + 0x80)

theorem toNat_byte {n : Nat} (h : n < 256) : (UInt8.ofNat n).toNat = n := by
  exact UInt8.toNat_ofNat_of_lt' h

theorem toNat_continuation (n : Nat) : (continuation n).toNat = n % 64 + 0x80 := by
  apply toNat_byte
  omega

theorem width?_eq (lead : UInt8) :
    width? lead =
      if lead.toNat ≤ 0x7f then some 1
      else if lead.toNat < 0xc2 then none
      else if lead.toNat ≤ 0xdf then some 2
      else if lead.toNat ≤ 0xef then some 3
      else if lead.toNat ≤ 0xf4 then some 4
      else none := by
  rfl

structure Decodes (lead : UInt8) (tail : List UInt8) (c : Char) : Prop where
  width : width? lead = some (tail.length + 1)
  valid : validTail lead tail = tail.length
  code : codePoint lead tail = c.toNat

theorem Decodes.character {lead : UInt8} {tail : List UInt8} {c : Char} (h : Decodes lead tail c) :
    character lead tail = .ok c := by
  unfold ByteSource.character
  dsimp only
  rw [if_pos h.valid, h.code, Char.ofNat_toNat]

-- The second byte of a character is a continuation, and after four lead bytes not any.
theorem second_of_continuation {lead : UInt8} (n : Nat) (he0 : lead.toNat = 0xe0 → 0x20 ≤ n % 64)
    (hed : lead.toNat = 0xed → n % 64 < 0x20) (hf0 : lead.toNat = 0xf0 → 0x10 ≤ n % 64)
    (hf4 : lead.toNat = 0xf4 → n % 64 < 0x10) :
    (secondRange lead).1 ≤ continuation n ∧ continuation n ≤ (secondRange lead).2 := by
  simp only [secondRange, ← UInt8.toNat_inj, UInt8.le_iff_toNat_le, toNat_continuation]
  repeat' split
  all_goals
    simp only [UInt8.reduceToNat] at *
    omega

theorem validTail_continuation {lead second : UInt8}
    (h : (secondRange lead).1 ≤ second ∧ second ≤ (secondRange lead).2) (codes : List Nat) :
    validTail lead (second :: codes.map continuation) = (second :: codes.map continuation).length := by
  have hall : (codes.map continuation).takeWhile (fun b => 0x80 ≤ b && b ≤ 0xbf) =
      codes.map continuation := by
    rw [List.takeWhile_eq_self_iff, List.forall_mem_map]
    intro n _
    simp only [Bool.and_eq_true, decide_eq_true_eq, UInt8.le_iff_toNat_le, toNat_continuation,
      UInt8.reduceToNat]
    omega
  simp only [validTail, h, decide_true, Bool.and_self, ↓reduceIte, hall, List.length_cons]
  omega

section

variable {c : Char}

theorem decodes_oneByte (h : c.toNat ≤ 0x7f) : Decodes (UInt8.ofNat c.toNat) [] c := by
  have hlead : (UInt8.ofNat c.toNat).toNat = c.toNat := toNat_byte (by omega)
  refine ⟨?_, rfl, hlead⟩
  rw [width?_eq, hlead, if_pos h]
  rfl

theorem decodes_twoBytes (h : 0x7f < c.toNat) (h' : c.toNat ≤ 0x7ff) :
    Decodes (UInt8.ofNat (c.toNat / 64 % 0x20 + 0xc0)) [continuation c.toNat] c := by
  generalize hlead : UInt8.ofNat (c.toNat / 64 % 0x20 + 0xc0) = lead
  have hlead : lead.toNat = c.toNat / 64 % 0x20 + 0xc0 := by
    rw [← hlead]
    exact toNat_byte (by omega)
  constructor
  . rw [width?_eq, if_neg (by omega), if_neg (by omega), if_pos (by omega)]
    rfl
  . apply validTail_continuation _ []
    apply second_of_continuation <;> omega
  . have hcode : codePoint lead [continuation c.toNat] =
        lead.toNat % 32 * 64 + (continuation c.toNat).toNat % 64 := rfl
    rw [hcode, toNat_continuation]
    omega

theorem decodes_threeBytes (h : 0x7ff < c.toNat) (h' : c.toNat ≤ 0xffff)
    (hs : c.toNat < 0xd800 ∨ 0xdfff < c.toNat) :
    Decodes (UInt8.ofNat (c.toNat / 4096 % 0x10 + 0xe0))
      [continuation (c.toNat / 64), continuation c.toNat] c := by
  generalize hlead : UInt8.ofNat (c.toNat / 4096 % 0x10 + 0xe0) = lead
  have hlead : lead.toNat = c.toNat / 4096 % 0x10 + 0xe0 := by
    rw [← hlead]
    exact toNat_byte (by omega)
  constructor
  . rw [width?_eq, if_neg (by omega), if_neg (by omega), if_neg (by omega), if_pos (by omega)]
    rfl
  . apply validTail_continuation _ [c.toNat]
    apply second_of_continuation <;> omega
  . have hcode : codePoint lead [continuation (c.toNat / 64), continuation c.toNat] =
        (lead.toNat % 16 * 64 + (continuation (c.toNat / 64)).toNat % 64) * 64 +
          (continuation c.toNat).toNat % 64 := rfl
    rw [hcode, toNat_continuation, toNat_continuation]
    omega

theorem decodes_fourBytes (h : 0xffff < c.toNat) (h' : c.toNat < 0x110000) :
    Decodes (UInt8.ofNat (c.toNat / 262144 % 0x08 + 0xf0))
      [continuation (c.toNat / 4096), continuation (c.toNat / 64), continuation c.toNat] c := by
  generalize hlead : UInt8.ofNat (c.toNat / 262144 % 0x08 + 0xf0) = lead
  have hlead : lead.toNat = c.toNat / 262144 % 0x08 + 0xf0 := by
    rw [← hlead]
    exact toNat_byte (by omega)
  constructor
  . rw [width?_eq, if_neg (by omega), if_neg (by omega), if_neg (by omega), if_neg (by omega),
      if_pos (by omega)]
    rfl
  . apply validTail_continuation _ [c.toNat / 64, c.toNat]
    apply second_of_continuation <;> omega
  . have hcode : codePoint lead
        [continuation (c.toNat / 4096), continuation (c.toNat / 64), continuation c.toNat] =
          ((lead.toNat % 8 * 64 + (continuation (c.toNat / 4096)).toNat % 64) * 64 +
            (continuation (c.toNat / 64)).toNat % 64) * 64 + (continuation c.toNat).toNat % 64 := rfl
    rw [hcode, toNat_continuation, toNat_continuation, toNat_continuation]
    omega

theorem decodes_encoded (c : Char) :
    ∃ lead tail, String.utf8EncodeChar c = lead :: tail ∧ Decodes lead tail c := by
  have hvalid : c.toNat < 0xd800 ∨ 0xdfff < c.toNat ∧ c.toNat < 0x110000 := c.valid
  have hv : c.val.toNat = c.toNat := rfl
  unfold String.utf8EncodeChar
  rw [hv]
  dsimp only
  split
  . next h => exact ⟨_, _, rfl, decodes_oneByte h⟩
  . split
    . exact ⟨_, _, rfl, decodes_twoBytes (by omega) (by omega)⟩
    . split
      . exact ⟨_, _, rfl, decodes_threeBytes (by omega) (by omega) (by omega)⟩
      . exact ⟨_, _, rfl, decodes_fourBytes (by omega) (by omega)⟩

end

namespace Carries

variable {source : ByteSource} {data : List UInt8}

theorem next_encoded {c : Char} (h : Carries source (String.utf8EncodeChar c ++ data)) :
    ∃ rest, source.next = (.ok (some c), rest) ∧ Carries rest data := by
  obtain ⟨lead, tail, hc, hdecodes⟩ := decodes_encoded c
  rw [hc, List.cons_append] at h
  obtain ⟨rest, hnext, hrest⟩ := h.next_character hdecodes.width rfl
  refine ⟨rest, ?_, hrest⟩
  rw [hnext, hdecodes.character]
  rfl

theorem decode_encoded {chars : List Char} (h : Carries source (chars.flatMap String.utf8EncodeChar)) :
    source.decode = chars.map .char := by
  induction chars generalizing source with
  | nil =>
    obtain ⟨rest, hnext, _⟩ := h.next_nil
    exact decode_of_end hnext
  | cons c chars ih =>
    rw [List.flatMap_cons] at h
    obtain ⟨rest, hnext, hrest⟩ := h.next_encoded
    rw [decode_of_char hnext, ih hrest]
    rfl

theorem decode_ofText {text : String} (h : Carries source text.toUTF8.data.toList) :
    source.decode = .ofText text := by
  have hutf8 : text.toUTF8.data.toList = text.toList.flatMap String.utf8EncodeChar := by
    rw [String.toUTF8_eq_toByteArray, ← String.utf8Encode_toList]
    exact List.toList_data_toByteArray
  rw [hutf8] at h
  exact h.decode_encoded

end Carries

end ByteSource

end TokenGrammar
