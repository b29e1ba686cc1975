import TokenGrammar.ByteSource

/-!
Readers that keep their last read in a slot, from which it can be delivered once more. Below the slot
stands a stream: the characters of a text (`Source.next`) or the buffers of a device (`ByteSource.next`).
The end of the stream is a read like any other, and a fault leaves the slot as it was.
-/

namespace TokenGrammar

structure Replay (σ : Type) where
  stream : σ
  last : Option (Option Char) := none
  pending : Bool := false
  deriving DecidableEq, Repr

namespace Replay

variable {σ : Type}

def ofStream (stream : σ) : Replay σ :=
  { stream }

def take (r : Replay σ) : Option (Option Char) × Replay σ :=
  if r.pending then (r.last, { r with pending := false }) else (none, r)

def record (r : Replay σ) (read : Option Char) : Replay σ :=
  { r with last := some read }

def read (next : σ → Except ReadError (Option Char) × σ) (r : Replay σ) :
    Except ReadError (Option Char) × Replay σ :=
  match r.take with
  | (some c, r) => (.ok c, r)
  | (none, r) =>
    match next r.stream with
    | (.ok c, stream) => (.ok c, { r with stream }.record c)
    | (.error error, stream) => (.error error, { r with stream })

def pushBack (r : Replay σ) : Replay σ :=
  { r with pending := r.last.isSome }

section

variable {next : σ → Except ReadError (Option Char) × σ} {stream rest : σ} {last : Option (Option Char)}

theorem read_of_ok {c : Option Char} (h : next stream = (.ok c, rest)) :
    read next ⟨stream, last, false⟩ = (.ok c, ⟨rest, some c, false⟩) := by
  simp [read, take, record, h]

theorem read_of_error {error : ReadError} (h : next stream = (.error error, rest)) :
    read next ⟨stream, last, false⟩ = (.error error, ⟨rest, last, false⟩) := by
  simp [read, take, h]

end

end Replay

end TokenGrammar
