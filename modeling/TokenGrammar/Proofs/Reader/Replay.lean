import TokenGrammar.Proofs.Reader.Encoded
import TokenGrammar.Reader
import TokenGrammar.Replay

/-!
Reading a text and taking back what was read. What a run of reads returns depends on the text alone, and
not on the buffers in which its bytes come (`Replay.answers_buffers`). The second side is
`Reader.replies`, which counts the reads that have not been taken back: the end of the stream is read and
taken back like a character. A slot for the last read above any stream is a reader of the source that the
stream follows (`Replay.Mirrors.answers`), faults included; buffers follow what is decoded of them as long
as the device keeps its contract.
-/

namespace TokenGrammar

namespace Reader

inductive Call where
  | read
  | pushBack
  deriving DecidableEq, Repr

def answers (r : Reader) : List Call → List (Except ReadError (Option Char))
  | [] => []
  | .read :: calls => r.read.1 :: r.read.2.answers calls
  | .pushBack :: calls => r.pushBack.answers calls

-- What the reads among the calls return along a text of which `place` reads have been made and not taken
-- back. One read can be taken back, if there was one since the last time.
def replies (text : List Char) (place : Nat) (fresh : Bool) : List Call → List (Option Char)
  | [] => []
  | .read :: calls => text[place]? :: replies text (place + 1) true calls
  | .pushBack :: calls => replies text (if fresh then place - 1 else place) false calls

structure Stands (text : List Char) (place : Nat) (fresh : Bool) (r : Reader) : Prop where
  upcoming : r.upcoming = (text.drop place).map .char
  last : r.last = if fresh then text[place - 1]? else none
  place_pos : fresh = true → 0 < place

variable {text : List Char} {place : Nat} {fresh : Bool} {r : Reader}

theorem Stands.read (h : Stands text place fresh r) :
    r.read.1 = .ok text[place]? ∧ Stands text (place + 1) true r.read.2 := by
  have hup := h.upcoming
  unfold Reader.read
  by_cases hlt : place < text.length
  . rw [List.drop_eq_getElem_cons hlt, List.map_cons] at hup
    rw [hup]
    refine ⟨?_, ?_⟩
    . simp [hlt]
    . exact ⟨rfl, by simp [hlt], fun _ => Nat.succ_pos place⟩
  . have hle : text.length ≤ place := Nat.le_of_not_lt hlt
    rw [List.drop_eq_nil_of_le hle, List.map_nil] at hup
    rw [hup]
    refine ⟨?_, ?_⟩
    . simp [hle]
    . refine ⟨?_, by simp [hle], fun _ => Nat.succ_pos place⟩
      rw [List.drop_eq_nil_of_le (by omega)]
      rfl

theorem Stands.pushBack (h : Stands text place fresh r) :
    Stands text (if fresh then place - 1 else place) false r.pushBack := by
  have hup := h.upcoming
  have hlast := h.last
  cases fresh with
  | false =>
    simp only [Bool.false_eq_true, ↓reduceIte] at hlast ⊢
    simp only [Reader.pushBack, hlast]
    exact h
  | true =>
    have hpos := h.place_pos rfl
    simp only [↓reduceIte] at hlast ⊢
    by_cases hlt : place - 1 < text.length
    . have hdrop := List.drop_eq_getElem_cons hlt
      rw [Nat.sub_add_cancel hpos] at hdrop
      simp only [Reader.pushBack, hlast, List.getElem?_eq_getElem hlt]
      refine ⟨?_, rfl, by simp⟩
      rw [hdrop, List.map_cons, hup]
    . -- The end of the stream was read, and comes again by itself.
      have hle : text.length ≤ place - 1 := Nat.le_of_not_lt hlt
      rw [List.getElem?_eq_none hle] at hlast
      simp only [Reader.pushBack, hlast]
      refine ⟨?_, hlast, by simp⟩
      rw [hup, List.drop_eq_nil_of_le hle, List.drop_eq_nil_of_le (by omega)]

theorem Stands.answers (h : Stands text place fresh r) (calls : List Call) :
    r.answers calls = (replies text place fresh calls).map .ok := by
  induction calls generalizing place fresh r with
  | nil => rfl
  | cons call calls ih =>
    cases call with
    | read =>
      obtain ⟨hread, hnext⟩ := h.read
      simp only [Reader.answers, replies, List.map_cons, hread, ih hnext]
    | pushBack => exact ih h.pushBack

theorem ofText_stands (text : String) : Stands text.toList 0 false (ofSource (.ofText text)) := by
  exact ⟨rfl, rfl, by simp⟩

end Reader

namespace Replay

open Reader (Call replies)

variable {σ : Type}

def answers (next : σ → Except ReadError (Option Char) × σ) (r : Replay σ) :
    List Call → List (Except ReadError (Option Char))
  | [] => []
  | .read :: calls => (r.read next).1 :: answers next (r.read next).2 calls
  | .pushBack :: calls => answers next r.pushBack calls

structure Simulates (next : σ → Except ReadError (Option Char) × σ) (follows : σ → Source → Prop) :
    Prop where
  read : ∀ {stream source}, follows stream source → (next stream).1 = source.next.1
  rest : ∀ {stream source}, follows stream source → follows (next stream).2 source.next.2

/-- The slot and the stream hold what is upcoming for the reader. Past its end the stream stays there. -/
inductive Mirrors (follows : σ → Source → Prop) : Replay σ → Reader → Prop where
  | idle {stream : σ} {source : Source} {last : Option (Option Char)} : follows stream source →
    (last = some none → source = []) → Mirrors follows ⟨stream, last, false⟩ ⟨source, last.join⟩
  | pending {stream : σ} {source : Source} {c : Option Char} : follows stream source →
    (c = none → source = []) →
    Mirrors follows ⟨stream, some c, true⟩ ⟨c.toList.map .char ++ source, none⟩

variable {next : σ → Except ReadError (Option Char) × σ} {follows : σ → Source → Prop}
  {r : Replay σ} {reader : Reader}

theorem Mirrors.read (hnext : Simulates next follows) (h : Mirrors follows r reader) :
    (r.read next).1 = reader.read.1 ∧ Mirrors follows (r.read next).2 reader.read.2 := by
  cases h with
  | pending hfollows hend =>
    rename_i stream source c
    cases c with
    | some c => exact ⟨rfl, .idle hfollows (by simp)⟩
    | none =>
      obtain rfl := hend rfl
      exact ⟨rfl, .idle hfollows fun _ => rfl⟩
  | idle hfollows hend =>
    rename_i stream source last
    have hread := hnext.read hfollows
    have hrest := hnext.rest hfollows
    obtain ⟨answer, rest, heq⟩ : ∃ answer rest, next stream = (answer, rest) := ⟨_, _, rfl⟩
    rw [heq] at hread hrest
    match source with
    | [] =>
      obtain rfl : answer = .ok none := hread
      rw [read_of_ok heq]
      exact ⟨rfl, .idle hrest fun _ => rfl⟩
    | .char c :: source =>
      obtain rfl : answer = .ok (some c) := hread
      rw [read_of_ok heq]
      exact ⟨rfl, .idle hrest (by simp)⟩
    | .fault error :: source =>
      obtain rfl : answer = .error error := hread
      rw [read_of_error heq]
      exact ⟨rfl, .idle hrest fun hlast => absurd (hend hlast) (by simp)⟩

theorem Mirrors.pushBack (h : Mirrors follows r reader) : Mirrors follows r.pushBack reader.pushBack := by
  cases h with
  | pending hfollows hend => exact .pending hfollows hend
  | idle hfollows hend =>
    rename_i stream source last
    match last with
    | none => exact .idle hfollows hend
    | some none => exact .pending hfollows fun _ => hend rfl
    | some (some c) => exact .pending hfollows (by simp)

theorem Mirrors.answers (hnext : Simulates next follows) (h : Mirrors follows r reader)
    (calls : List Call) : r.answers next calls = reader.answers calls := by
  induction calls generalizing r reader with
  | nil => rfl
  | cons call calls ih =>
    cases call with
    | read =>
      obtain ⟨hread, hmirrors⟩ := h.read hnext
      rw [Replay.answers, Reader.answers, hread, ih hmirrors]
    | pushBack => exact ih h.pushBack

theorem ofStream_mirrors {stream : σ} {source : Source} (h : follows stream source) :
    Mirrors follows (ofStream stream) (.ofSource source) :=
  .idle h (by simp)

theorem simulates_source : Simulates Source.next Eq := by
  constructor
  . rintro source _ rfl
    rfl
  . rintro source _ rfl
    rfl

end Replay

/-! The buffers of a device, as long as it keeps its contract. -/

namespace ByteSource

variable {source rest : ByteSource}

theorem carries_nil (h : ∀ chunk ∈ source, chunk.Idle) : Carries source [] := by
  refine ⟨?_, fun error hmem => h _ hmem, ?_⟩
  . rw [List.flatMap_eq_nil_iff]
    intro chunk hmem
    have := h chunk hmem
    cases chunk with
    | bytes data => exact this
    | failure error => rfl
  . exact List.pairwise_of_forall_mem_list fun _ _ later hmem _ => h later hmem

theorem EmptyAtEnd.readByte (h : source.EmptyAtEnd) : source.readByte.2.EmptyAtEnd := by
  induction source with
  | nil => exact readByte_nil ▸ h
  | cons chunk source ih =>
    obtain ⟨_, htail⟩ := List.pairwise_cons.1 h
    match chunk with
    | .bytes [] => exact readByte_empty source ▸ htail
    | .bytes (b :: data) =>
      rw [readByte_bytes]
      dsimp only
      split
      . exact htail
      . next hdata => exact List.pairwise_cons.2 ⟨by simp [hdata], htail⟩
    | .failure error =>
      rw [readByte_failure]
      split
      . exact ih htail
      . exact htail

theorem EmptyAtEnd.carries_nil_of_readByte (h : source.EmptyAtEnd)
    (hbyte : source.readByte = (.ok none, rest)) : Carries rest [] := by
  induction source with
  | nil =>
    rw [readByte_nil] at hbyte
    exact (Prod.mk.inj hbyte).2 ▸ carries_nil (by simp)
  | cons chunk source ih =>
    obtain ⟨hlater, htail⟩ := List.pairwise_cons.1 h
    match chunk with
    | .bytes [] =>
      rw [readByte_empty] at hbyte
      obtain rfl := (Prod.mk.inj hbyte).2
      exact carries_nil fun later hmem => hlater later hmem rfl
    | .bytes (b :: data) => simp [readByte_bytes] at hbyte
    | .failure error =>
      rw [readByte_failure] at hbyte
      split at hbyte
      . exact ih htail hbyte
      . simp at hbyte

theorem EmptyAtEnd.takeBytes (h : source.EmptyAtEnd) (n : Nat) :
    (takeBytes n source).2.EmptyAtEnd := by
  induction n generalizing source with
  | zero => exact h
  | succ n ih =>
    have hbyte := h.readByte
    simp only [ByteSource.takeBytes]
    split <;> next heq =>
      rw [heq] at hbyte
      first
        | exact hbyte
        | exact ih hbyte

theorem EmptyAtEnd.next (h : source.EmptyAtEnd) : source.next.2.EmptyAtEnd := by
  have hbyte := h.readByte
  unfold ByteSource.next
  split
  . next heq => rwa [heq] at hbyte
  . next heq => rwa [heq] at hbyte
  . next heq =>
    rw [heq] at hbyte
    split
    . exact hbyte
    . next width _ =>
      have htake := hbyte.takeBytes (width - 1)
      split <;> next htaken => rwa [htaken] at htake

theorem EmptyAtEnd.decode_of_next (h : source.EmptyAtEnd) (hnext : source.next = (.ok none, rest)) :
    rest.decode = [] := by
  have hbyte : source.readByte = (.ok none, rest) := by
    unfold ByteSource.next at hnext
    split at hnext
    . simp at hnext
    . next heq => rw [heq, (Prod.mk.inj hnext).2]
    . next lead _ _ =>
      split at hnext
      . simp at hnext
      . split at hnext
        . simp at hnext
        . next tail _ _ =>
          cases hc : character lead tail <;> simp [hc, Except.map] at hnext
  obtain ⟨rest', hnext', _⟩ := (h.carries_nil_of_readByte hbyte).next_nil
  exact decode_of_end hnext'

theorem simulates_decode :
    Replay.Simulates next fun source reads => source.EmptyAtEnd ∧ reads = source.decode := by
  constructor
  . rintro source _ ⟨_, rfl⟩
    match hnext : source.next with
    | (.ok none, rest) => rw [decode_of_end hnext]; rfl
    | (.ok (some c), rest) => rw [decode_of_char hnext]; rfl
    | (.error error, rest) => rw [decode_of_fault hnext]; rfl
  . rintro source _ ⟨hend, rfl⟩
    refine ⟨hend.next, ?_⟩
    match hnext : source.next with
    | (.ok none, rest) => rw [decode_of_end hnext, hend.decode_of_next hnext]; rfl
    | (.ok (some c), rest) => rw [decode_of_char hnext]; rfl
    | (.error error, rest) => rw [decode_of_fault hnext]; rfl

end ByteSource

namespace Replay

open Reader (Call replies)

theorem answers_decode {source : ByteSource} (h : source.EmptyAtEnd) (calls : List Call) :
    (ofStream source).answers ByteSource.next calls = (Reader.ofSource source.decode).answers calls :=
  (ofStream_mirrors ⟨h, rfl⟩).answers ByteSource.simulates_decode calls

theorem answers_source (source : Source) (calls : List Call) :
    (ofStream source).answers Source.next calls = (Reader.ofSource source).answers calls :=
  (ofStream_mirrors rfl).answers simulates_source calls

theorem answers_buffers {source : ByteSource} {text : String}
    (hbytes : source.flatMap Chunk.data = text.toUTF8.data.toList)
    (hfail : ∀ error, .failure error ∈ source → error.kind = .interrupted)
    (hend : source.EmptyAtEnd) (calls : List Call) :
    (ofStream source).answers ByteSource.next calls =
        (ofStream (Source.ofText text)).answers Source.next calls ∧
      (ofStream (Source.ofText text)).answers Source.next calls =
        (replies text.toList 0 false calls).map .ok ∧
      (Reader.ofSource source.decode).answers calls = (replies text.toList 0 false calls).map .ok := by
  have hcarries : source.Carries text.toUTF8.data.toList := ⟨hbytes, hfail, hend⟩
  have hreplies := (Reader.ofText_stands text).answers calls
  rw [answers_decode hend, answers_source, hcarries.decode_ofText]
  exact ⟨rfl, hreplies, hreplies⟩

theorem answers_ofChunks {chunks : List Chunk} {text : String}
    (hbytes : chunks.flatMap Chunk.data = text.toUTF8.data.toList)
    (hfail : ∀ error, .failure error ∈ chunks → error.kind = .interrupted) (calls : List Call) :
    (ofStream (ByteSource.ofChunks chunks)).answers ByteSource.next calls =
      (replies text.toList 0 false calls).map .ok := by
  have hcarries := ByteSource.ofChunks_carries hfail
  rw [hbytes] at hcarries
  rw [answers_decode hcarries.ending, hcarries.decode_ofText]
  exact (Reader.ofText_stands text).answers calls

-- The bytes of the text `aé😀`, in buffers that end inside its characters.
def brokenBuffers : ByteSource :=
  let interrupted := Chunk.failure { kind := .interrupted, message := "again" }
  [interrupted, .bytes [0x61, 0xc3], interrupted, .bytes [0xa9, 0xf0, 0x9f], .bytes [0x98, 0x80],
    interrupted, .bytes [], interrupted, .bytes []]

theorem answers_buffers_brokenBuffers :
    brokenBuffers.flatMap Chunk.data = "aé😀".toUTF8.data.toList ∧
      (∀ error, .failure error ∈ brokenBuffers → error.kind = .interrupted) ∧
      brokenBuffers.EmptyAtEnd ∧
      (ofStream brokenBuffers).answers ByteSource.next
          [.pushBack, .read, .pushBack, .pushBack, .read, .read, .read, .read, .pushBack, .read, .read] =
        [.ok (some 'a'), .ok (some 'a'), .ok (some 'é'), .ok (some '😀'), .ok none, .ok none, .ok none] := by
  have hbytes : brokenBuffers.flatMap Chunk.data = "aé😀".toUTF8.data.toList := by decide
  have hfail : ∀ error, .failure error ∈ brokenBuffers → error.kind = .interrupted := by
    simp [brokenBuffers]
  have hend : brokenBuffers.EmptyAtEnd := by
    simp [ByteSource.EmptyAtEnd, brokenBuffers, Chunk.Idle]
  refine ⟨hbytes, hfail, hend, ?_⟩
  obtain ⟨hsame, hplaces, _⟩ := answers_buffers hbytes hfail hend
    [.pushBack, .read, .pushBack, .pushBack, .read, .read, .read, .read, .pushBack, .read, .read]
  rw [hsame, hplaces]
  rfl

-- Without the contract the end of the stream is not the last read.
example : (ofStream [.bytes [], .bytes [0x61]]).answers ByteSource.next [.read, .read] =
    [.ok none, .ok (some 'a')] := by
  decide +kernel

end Replay

end TokenGrammar
