import TokenGrammar.Source

/-!
Sources from bytes. A device shows its bytes in buffers, of which those that have been read are consumed,
and it may fail when it is asked for one; its bytes are read as UTF-8. The lead byte of a character tells
how many bytes are read for it, and only then is it judged whether they form a character, so that a fault
takes with it all the bytes read so far.
-/

namespace TokenGrammar

inductive Chunk where
  | bytes (data : List UInt8)
  | failure (error : DeviceError)
  deriving DecidableEq, Repr

/-- The answers of a device that are still to come. After them it shows empty buffers. -/
abbrev ByteSource := List Chunk

namespace ByteSource

def fill : ByteSource → Except DeviceError (List UInt8) × ByteSource
  | [] => (.ok [], [])
  | .bytes [] :: source => (.ok [], source)
  | .bytes (b :: data) :: source => (.ok (b :: data), .bytes (b :: data) :: source)
  | .failure error :: source => (.error error, source)

def consume (n : Nat) : ByteSource → ByteSource
  | .bytes data :: source =>
    match data.drop n with
    | [] => source
    | left => .bytes left :: source
  | source => source

theorem fill_error_length_lt {source rest : ByteSource} {error : DeviceError}
    (h : source.fill = (.error error, rest)) : rest.length < source.length := by
  unfold fill at h
  split at h <;> simp_all

-- The first byte of the buffer. A device that was interrupted is asked again.
def readByte (source : ByteSource) : Except DeviceError (Option UInt8) × ByteSource :=
  match h : source.fill with
  | (.ok [], source) => (.ok none, source)
  | (.ok (b :: _), source) => (.ok (some b), source.consume 1)
  | (.error error, rest) =>
    have := fill_error_length_lt h
    if error.kind = .interrupted then readByte rest else (.error error, rest)
termination_by source.length

def width? (lead : UInt8) : Option Nat :=
  if lead ≤ 0x7f then some 1
  else if lead < 0xc2 then none
  else if lead ≤ 0xdf then some 2
  else if lead ≤ 0xef then some 3
  else if lead ≤ 0xf4 then some 4
  else none

-- Four lead bytes restrict the byte after them, so that no character has two forms, none is a surrogate
-- and none is past the last code point.
def secondRange (lead : UInt8) : UInt8 × UInt8 :=
  if lead = 0xe0 then (0xa0, 0xbf)
  else if lead = 0xed then (0x80, 0x9f)
  else if lead = 0xf0 then (0x90, 0xbf)
  else if lead = 0xf4 then (0x80, 0x8f)
  else (0x80, 0xbf)

def leadBits (lead : UInt8) (width : Nat) : Nat :=
  if width = 1 then lead.toNat else lead.toNat % Nat.pow 2 (7 - width)

-- The number of bytes of a tail that may follow the lead byte, up to the first that may not.
def validTail (lead : UInt8) : List UInt8 → Nat
  | [] => 0
  | second :: tail =>
    let (low, high) := secondRange lead
    if low ≤ second && second ≤ high then
      1 + (tail.takeWhile fun b => 0x80 ≤ b && b ≤ 0xbf).length
    else 0

def codePoint (lead : UInt8) (tail : List UInt8) : Nat :=
  tail.foldl (fun code b => code * 64 + b.toNat % 64) (leadBits lead (tail.length + 1))

def character (lead : UInt8) (tail : List UInt8) : Except ReadError Char :=
  let valid := validTail lead tail
  if valid = tail.length then .ok (Char.ofNat (codePoint lead tail))
  else .error (.badSequence (valid + 1))

def takeBytes : Nat → ByteSource → Except ReadError (List UInt8) × ByteSource
  | 0, source => (.ok [], source)
  | n + 1, source =>
    match source.readByte with
    | (.error error, source) => (.error (.device error), source)
    | (.ok none, source) => (.error .truncated, source)
    | (.ok (some b), source) =>
      let (tail, source) := takeBytes n source
      (tail.map (b :: ·), source)

def next (source : ByteSource) : Except ReadError (Option Char) × ByteSource :=
  match source.readByte with
  | (.error error, source) => (.error (.device error), source)
  | (.ok none, source) => (.ok none, source)
  | (.ok (some lead), source) =>
    match width? lead with
    | none => (.error (.badLead lead), source)
    | some width =>
      match takeBytes (width - 1) source with
      | (.error error, source) => (.error error, source)
      | (.ok tail, source) => ((character lead tail).map some, source)

/-! Every read but the end of the stream leaves less of the device. -/

def size : ByteSource → Nat
  | [] => 0
  | .bytes data :: source => data.length + 1 + size source
  | .failure _ :: source => 1 + size source

theorem readByte_nil : readByte [] = (.ok none, []) := by
  rw [readByte]
  simp [fill]

theorem readByte_empty (source : ByteSource) : readByte (.bytes [] :: source) = (.ok none, source) := by
  rw [readByte]
  simp [fill]

theorem readByte_bytes (b : UInt8) (data : List UInt8) (source : ByteSource) :
    readByte (.bytes (b :: data) :: source) =
      (.ok (some b), if data = [] then source else .bytes data :: source) := by
  rw [readByte]
  cases data with
  | nil => simp [fill, consume]
  | cons c data => simp [fill, consume]

theorem readByte_failure (error : DeviceError) (source : ByteSource) :
    readByte (.failure error :: source) =
      if error.kind = .interrupted then source.readByte else (.error error, source) := by
  rw [readByte]
  simp [fill]

theorem readByte_size_le (source : ByteSource) : source.readByte.2.size ≤ source.size := by
  induction source with
  | nil => simp [readByte_nil]
  | cons chunk source ih =>
    match chunk with
    | .bytes [] => simp [readByte_empty, size]
    | .bytes (b :: data) =>
      rw [readByte_bytes]
      dsimp only
      split <;> simp only [size, List.length_cons] <;> omega
    | .failure error =>
      rw [readByte_failure]
      split <;> simp only [size] <;> omega

theorem readByte_size_lt {source : ByteSource} (h : source.readByte.1 ≠ .ok none) :
    source.readByte.2.size < source.size := by
  induction source with
  | nil => simp [readByte_nil] at h
  | cons chunk source ih =>
    match chunk with
    | .bytes [] => simp [readByte_empty] at h
    | .bytes (b :: data) =>
      rw [readByte_bytes]
      dsimp only
      split <;> simp only [size, List.length_cons] <;> omega
    | .failure error =>
      rw [readByte_failure] at h ⊢
      split
      . next hkind =>
        rw [if_pos hkind] at h
        have := ih h
        simp only [size]
        omega
      . simp only [size]
        omega

theorem takeBytes_size_le (n : Nat) (source : ByteSource) :
    (takeBytes n source).2.size ≤ source.size := by
  induction n generalizing source with
  | zero => simp [takeBytes]
  | succ n ih =>
    have hbyte := source.readByte_size_le
    simp only [takeBytes]
    split <;> next heq =>
      rw [heq] at hbyte
      first
        | exact hbyte
        | exact Nat.le_trans (ih _) hbyte

theorem next_size_lt {source rest : ByteSource} {read : Except ReadError (Option Char)}
    (h : source.next = (read, rest)) (hread : read ≠ .ok none) : rest.size < source.size := by
  have hlt := @readByte_size_lt source
  unfold next at h
  split at h
  . next heq =>
    obtain ⟨-, rfl⟩ := Prod.mk.inj h
    simpa [heq] using hlt
  . exact absurd (Prod.mk.inj h).1.symm hread
  . next lead source' heq =>
    have hlt : source'.size < source.size := by simpa [heq] using hlt
    split at h
    . obtain ⟨-, rfl⟩ := Prod.mk.inj h
      exact hlt
    . next width _ =>
      have hle := takeBytes_size_le (width - 1) source'
      split at h <;> next htake =>
        rw [htake, (Prod.mk.inj h).2] at hle
        exact Nat.lt_of_le_of_lt hle hlt

def decode (source : ByteSource) : Source :=
  go [] source
where
  go (reads : Source) (source : ByteSource) : Source :=
    match h : source.next with
    | (.ok none, _) => reads.reverse
    | (.ok (some c), rest) =>
      have := next_size_lt h (by simp)
      go (.char c :: reads) rest
    | (.error error, rest) =>
      have := next_size_lt h (by simp)
      go (.fault error :: reads) rest
  termination_by source.size

/-- A stream of pieces. An empty piece is passed over, since an empty buffer would be the end. -/
def ofChunks (chunks : List Chunk) : ByteSource :=
  chunks.filter (· ≠ .bytes [])

end ByteSource

def Source.ofChunks (chunks : List Chunk) : Source :=
  (ByteSource.ofChunks chunks).decode

def Source.ofBytes (data : List UInt8) : Source :=
  .ofChunks [.bytes data]

end TokenGrammar
