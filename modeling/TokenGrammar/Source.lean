import TokenGrammar.ReadError

/-!
Character sources. A source is the list of everything that reading will still deliver, characters and
faults in order; past its last element it delivers the end of the stream for ever. What is read ahead
is never lost, since a source is a value: looking at a delimiter and going back is keeping the old
source.
-/

namespace TokenGrammar

inductive Read where
  | char (c : Char)
  | fault (error : ReadError)
  deriving DecidableEq, Repr, Inhabited

abbrev Source := List Read

inductive Probe where
  | hit (rest : Source)
  | miss
  | fault (error : ReadError) (rest : Source)
  deriving DecidableEq, Repr

namespace Source

def ofText (text : String) : Source :=
  text.toList.map .char

def next : Source → Except ReadError (Option Char) × Source
  | [] => (.ok none, [])
  | .char c :: rest => (.ok (some c), rest)
  | .fault error :: rest => (.error error, rest)

def startsWith (p : Char → Bool) : Source → Bool
  | .char c :: _ => p c
  | _ => false

/--
The characters up to the first place where `stop` holds of the source, and the source from there on.
A fault and the end of the stream stop it too.
-/
def takeUntil (stop : Source → Bool) (input : Source) : List Char × Source :=
  go [] input
where
  go (taken : List Char) : Source → List Char × Source
    | .char c :: rest =>
      if stop (.char c :: rest) then (taken.reverse, .char c :: rest) else go (c :: taken) rest
    | .fault error :: rest => (taken.reverse, .fault error :: rest)
    | [] => (taken.reverse, [])

def takeRun (p : Char → Bool) (input : Source) : List Char × Source :=
  takeUntil (fun rest => !startsWith p rest) input

def probe : List Char → Source → Probe
  | [], input => .hit input
  | d :: delimiter, .char c :: rest => if c = d then probe delimiter rest else .miss
  | _ :: _, .fault error :: rest => .fault error rest
  | _ :: _, [] => .miss

def isLineBreak (c : Char) : Bool :=
  c = '\r' || c = '\n'

/--
The line breaks that a character makes when `next` follows it. A carriage return before a line feed is
one break with it, and before a fault it is not known to be a break.
-/
def breakAt (c : Char) (next : Source) : Nat :=
  if c = '\n' then 1
  else if c = '\r' then
    match next with
    | .char d :: _ => if d = '\n' then 0 else 1
    | .fault _ :: _ => 0
    | [] => 1
  else 0

def lineBreaks (n : Nat) (input : Source) : Nat :=
  go 0 n input
where
  go (breaks : Nat) : Nat → Source → Nat
    | n + 1, .char c :: rest => go (breaks + breakAt c rest) n rest
    | _, _ => breaks

/-! The rest of a source is never longer than the source. -/

theorem takeUntil_go_length_le (stop : Source → Bool) (taken : List Char) (input : Source) :
    (takeUntil.go stop taken input).2.length ≤ input.length := by
  induction input generalizing taken with
  | nil => simp [takeUntil.go]
  | cons read rest ih =>
    cases read with
    | fault error => simp [takeUntil.go]
    | char c =>
      simp only [takeUntil.go]
      split
      . simp
      . have := ih (c :: taken)
        simp only [List.length_cons]
        omega

theorem takeUntil_length_le (stop : Source → Bool) (input : Source) :
    (takeUntil stop input).2.length ≤ input.length :=
  takeUntil_go_length_le stop [] input

theorem takeRun_length_le (p : Char → Bool) (input : Source) :
    (takeRun p input).2.length ≤ input.length :=
  takeUntil_length_le _ input

theorem takeRun_length_lt {p : Char → Bool} {c : Char} (h : p c) (rest : Source) :
    (takeRun p (.char c :: rest)).2.length < rest.length + 1 := by
  have hc : startsWith p (.char c :: rest) = true := h
  have := takeUntil_go_length_le (fun rest => !startsWith p rest) [c] rest
  simp only [takeRun, takeUntil, takeUntil.go, hc]
  simp only [Bool.not_true, Bool.false_eq_true, ↓reduceIte]
  omega

theorem probe_hit_split {delimiter : List Char} {input rest : Source}
    (h : probe delimiter input = .hit rest) : input = delimiter.map .char ++ rest := by
  induction delimiter generalizing input with
  | nil => simpa [probe] using h
  | cons d delimiter ih =>
    cases input with
    | nil => simp [probe] at h
    | cons read input =>
      cases read with
      | fault error => simp [probe] at h
      | char c =>
        unfold probe at h
        split at h
        . next hc => rw [ih h, hc, List.map_cons, List.cons_append]
        . simp at h

theorem probe_hit_length {delimiter : List Char} {input rest : Source}
    (h : probe delimiter input = .hit rest) : rest.length + delimiter.length = input.length := by
  rw [probe_hit_split h, List.length_append, List.length_map, Nat.add_comm]

theorem probe_fault_length_lt {delimiter : List Char} {input rest : Source} {error : ReadError}
    (h : probe delimiter input = .fault error rest) : rest.length < input.length := by
  induction delimiter generalizing input with
  | nil => simp [probe] at h
  | cons d delimiter ih =>
    cases input with
    | nil => simp [probe] at h
    | cons read input =>
      cases read with
      | fault error => simp_all [probe]
      | char c =>
        simp only [probe] at h
        split at h
        . have := ih h
          simp only [List.length_cons]
          omega
        . simp at h

end Source

end TokenGrammar
