import TokenGrammar.Reader
import TokenGrammar.Token.Scan

/-!
Looking ahead with a reader that can take back one character only. Characters that are put back stand on
a stack above the reader; what is read for an answer that turns out to be no is put back in its order. A
source, which is a value, needs none of this (`Source.probe`, `Config.wordStop`).
-/

namespace TokenGrammar

def Probe.answer (before : Source) : Probe → Except ReadError Bool × Source
  | hit rest => (.ok true, rest)
  | miss => (.ok false, before)
  | fault error rest => (.error error, rest)

def Opening.answer (before : Source) : Opening → Except ReadError Bool × Source
  | none => (.ok false, before)
  | comment _ _ _ => (.ok true, before)
  | fault error rest => (.error error, rest)

def WordStop.answer (before : Source) : WordStop → Except ReadError Bool × Source
  | goesOn => (.ok false, before)
  | ends => (.ok true, before)
  | fault error rest => (.error error, rest)

structure Lookahead where
  /-- The characters that have been put back, the one that comes next first. -/
  stack : List Char := []
  reader : Reader
  deriving DecidableEq, Repr

-- An opener that comes next starts with the next character, so the others need not be looked for.
theorem Config.opening_go_filter {openers : List (List Char × CommentStyle)} (hne : ∀ o ∈ openers, o.1 ≠ [])
    (c : Char) (rest : Source) :
    opening.go (.char c :: rest) (openers.filter fun opener => opener.1.head? = some c) =
      opening.go (.char c :: rest) openers := by
  induction openers with
  | nil => rfl
  | cons first openers ih =>
    have ih := ih fun o ho => hne o (List.mem_cons_of_mem _ ho)
    obtain ⟨opener, style⟩ := first
    cases opener with
    | nil => exact absurd rfl (hne ([], style) List.mem_cons_self)
    | cons d opener =>
      by_cases hd : d = c
      . rw [List.filter_cons_of_pos (by simp [hd])]
        simp only [opening.go, ih]
      . rw [List.filter_cons_of_neg (by simp [hd]), ih]
        simp [opening.go, Source.probe, Ne.symm hd]

namespace Lookahead

def next (s : Lookahead) : Except ReadError (Option Char) × Lookahead :=
  match s.stack with
  | c :: stack => (.ok (some c), { s with stack })
  | [] => (s.reader.read.1, { s with reader := s.reader.read.2 })

def unread (s : Lookahead) (c : Char) : Lookahead :=
  { s with stack := c :: s.stack }

/-- Puts characters back one after the other, so that the last of them comes next. -/
def unreadAll (s : Lookahead) (chars : List Char) : Lookahead :=
  chars.foldl unread s

def peek (s : Lookahead) : Except ReadError (Option Char) × Lookahead :=
  match s.stack with
  | c :: _ => (.ok (some c), s)
  | [] =>
    match s.reader.read with
    | (.ok c, reader) => (.ok c, { s with reader := reader.pushBack })
    | (.error error, reader) => (.error error, { s with reader })

def eat (s : Lookahead) (delimiter : List Char) : Except ReadError Bool × Lookahead :=
  go [] s delimiter
where
  -- `taken` holds the characters that have been taken, the last one first.
  go (taken : List Char) (s : Lookahead) : List Char → Except ReadError Bool × Lookahead
    | [] => (.ok true, s)
    | d :: delimiter =>
      match s.next with
      | (.error error, s) => (.error error, s)
      | (.ok none, s) => (.ok false, s.unreadAll taken)
      | (.ok (some c), s) =>
        if c = d then go (c :: taken) s delimiter else (.ok false, (s.unread c).unreadAll taken)

def endsWord (s : Lookahead) (config : Config) (c : Char) : Except ReadError Bool × Lookahead :=
  if Source.isLineBreak c || config.isWhitespace c || config.isQuote c then (.ok true, s)
  else go s ((config.openers.map Prod.fst).filter fun opener => opener.head? = some c)
where
  -- Looks for the first of the openers that comes next, and puts it back.
  go (s : Lookahead) : List (List Char) → Except ReadError Bool × Lookahead
    | [] => (.ok false, s)
    | opener :: openers =>
      match s.eat opener with
      | (.error error, s) => (.error error, s)
      | (.ok true, s) => (.ok true, s.unreadAll opener.reverse)
      | (.ok false, s) => go s openers

def pending (s : Lookahead) : Source :=
  s.stack.map .char ++ s.reader.upcoming

/-! An operation answers, and leaves pending, what its counterpart on the pending source does. -/

variable {s s' : Lookahead}

@[simp]
theorem pending_unread (s : Lookahead) (c : Char) : (s.unread c).pending = .char c :: s.pending := rfl

theorem pending_unreadAll (s : Lookahead) (chars : List Char) :
    (s.unreadAll chars).pending = chars.reverse.map .char ++ s.pending := by
  unfold unreadAll
  induction chars generalizing s with
  | nil => rfl
  | cons c chars ih => simp [ih]

theorem next_pending (s : Lookahead) : (s.next.1, s.next.2.pending) = s.pending.next := by
  obtain ⟨stack, ⟨upcoming, last⟩⟩ := s
  cases stack with
  | cons c stack => rfl
  | nil =>
    cases upcoming with
    | nil => rfl
    | cons read upcoming => cases read <;> rfl

theorem next_char {c : Char} (h : s.next = (.ok (some c), s')) : s.pending = .char c :: s'.pending := by
  have hnext := s.next_pending
  rw [h] at hnext
  unfold Source.next at hnext
  split at hnext <;> simp_all

theorem next_end (h : s.next = (.ok none, s')) : s.pending = [] ∧ s'.pending = [] := by
  have hnext := s.next_pending
  rw [h] at hnext
  unfold Source.next at hnext
  split at hnext <;> simp_all

theorem next_fault {error : ReadError} (h : s.next = (.error error, s')) :
    s.pending = .fault error :: s'.pending := by
  have hnext := s.next_pending
  rw [h] at hnext
  unfold Source.next at hnext
  split at hnext <;> simp_all

-- The reader takes back the character that it has just read, so that one level is enough.
theorem peek_ok {c : Option Char} (h : s.peek = (.ok c, s')) :
    s'.pending = s.pending ∧ s.pending.next.1 = .ok c := by
  obtain ⟨stack, ⟨upcoming, last⟩⟩ := s
  cases stack with
  | cons d stack =>
    simp only [peek, Prod.mk.injEq, Except.ok.injEq] at h
    obtain ⟨rfl, rfl⟩ := h
    exact ⟨rfl, rfl⟩
  | nil =>
    cases upcoming with
    | nil =>
      simp only [peek, Reader.read, Prod.mk.injEq, Except.ok.injEq] at h
      obtain ⟨rfl, rfl⟩ := h
      exact ⟨rfl, rfl⟩
    | cons read upcoming =>
      cases read with
      | fault error => simp [peek, Reader.read] at h
      | char d =>
        simp only [peek, Reader.read, Prod.mk.injEq, Except.ok.injEq] at h
        obtain ⟨rfl, rfl⟩ := h
        exact ⟨rfl, rfl⟩

theorem peek_char {c : Char} (h : s.peek = (.ok (some c), s')) :
    s'.pending = s.pending ∧ ∃ rest, s.pending = .char c :: rest := by
  obtain ⟨hafter, hnext⟩ := peek_ok h
  refine ⟨hafter, ?_⟩
  unfold Source.next at hnext
  split at hnext <;> simp_all

theorem peek_end (h : s.peek = (.ok none, s')) : s.pending = [] ∧ s'.pending = [] := by
  obtain ⟨hafter, hnext⟩ := peek_ok h
  unfold Source.next at hnext
  split at hnext <;> simp_all

theorem peek_fault {error : ReadError} (h : s.peek = (.error error, s')) :
    s.pending = .fault error :: s'.pending := by
  obtain ⟨stack, ⟨upcoming, last⟩⟩ := s
  cases stack with
  | cons d stack => simp [peek] at h
  | nil =>
    cases upcoming with
    | nil => simp [peek, Reader.read] at h
    | cons read upcoming =>
      cases read with
      | char d => simp [peek, Reader.read] at h
      | fault error' =>
        simp only [peek, Reader.read, Prod.mk.injEq, Except.error.injEq] at h
        obtain ⟨rfl, rfl⟩ := h
        rfl

theorem eat_go_pending (taken : List Char) (s : Lookahead) (delimiter : List Char) :
    ((eat.go taken s delimiter).1, (eat.go taken s delimiter).2.pending) =
      (s.pending.probe delimiter).answer (taken.reverse.map .char ++ s.pending) := by
  induction delimiter generalizing taken s with
  | nil => rfl
  | cons d delimiter ih =>
    unfold eat.go
    split
    . next hnext =>
      rw [next_fault hnext]
      rfl
    . next hnext =>
      obtain ⟨hpending, hafter⟩ := next_end hnext
      simp [hpending, hafter, Source.probe, Probe.answer, pending_unreadAll]
    . next c after hnext =>
      rw [next_char hnext, Source.probe]
      split
      . simp [ih (c :: taken) after]
      . simp [Probe.answer, pending_unreadAll]

theorem eat_pending (s : Lookahead) (delimiter : List Char) :
    ((s.eat delimiter).1, (s.eat delimiter).2.pending) = (s.pending.probe delimiter).answer s.pending :=
  eat_go_pending [] s delimiter

theorem eat_hit {delimiter : List Char} (h : s.eat delimiter = (.ok true, s')) :
    s.pending.probe delimiter = .hit s'.pending := by
  have heat := s.eat_pending delimiter
  rw [h] at heat
  unfold Probe.answer at heat
  split at heat <;> simp_all

theorem eat_miss {delimiter : List Char} (h : s.eat delimiter = (.ok false, s')) :
    s.pending.probe delimiter = .miss ∧ s'.pending = s.pending := by
  have heat := s.eat_pending delimiter
  rw [h] at heat
  unfold Probe.answer at heat
  split at heat <;> simp_all

theorem eat_fault {delimiter : List Char} {error : ReadError} (h : s.eat delimiter = (.error error, s')) :
    s.pending.probe delimiter = .fault error s'.pending := by
  have heat := s.eat_pending delimiter
  rw [h] at heat
  unfold Probe.answer at heat
  split at heat <;> simp_all

theorem endsWord_go_pending (s : Lookahead) (openers : List (List Char × CommentStyle)) :
    ((endsWord.go s (openers.map Prod.fst)).1, (endsWord.go s (openers.map Prod.fst)).2.pending) =
      (Config.opening.go s.pending openers).answer s.pending := by
  induction openers generalizing s with
  | nil => rfl
  | cons first openers ih =>
    obtain ⟨opener, style⟩ := first
    simp only [List.map_cons, endsWord.go, Config.opening.go]
    split
    . next heat =>
      rw [eat_fault heat]
      rfl
    . next heat =>
      -- The opener comes off and goes back, its last character first.
      have hhit := eat_hit heat
      rw [hhit]
      simp [Opening.answer, pending_unreadAll, ← Source.probe_hit_split hhit]
    . next after heat =>
      obtain ⟨hmiss, hafter⟩ := eat_miss heat
      rw [hmiss, ih after, hafter]

theorem endsWord_pending (s : Lookahead) (config : Config) (c : Char) :
    ((s.endsWord config c).1, (s.endsWord config c).2.pending) =
      if Source.isLineBreak c || config.isWhitespace c || config.isQuote c then (.ok true, s.pending)
      else
        (Config.opening.go s.pending
          (config.openers.filter fun opener => opener.1.head? = some c)).answer s.pending := by
  unfold endsWord
  split
  . rfl
  . rw [← endsWord_go_pending, List.filter_map]
    rfl

theorem endsWord_char {c : Char} {rest : Source} (h : s.pending = .char c :: rest) (config : Config) :
    ((s.endsWord config c).1, (s.endsWord config c).2.pending) =
      (config.wordStop s.pending).answer s.pending := by
  rw [endsWord_pending, h, Config.opening_go_filter config.openers_ne_nil]
  split
  . next hends => simp only [Config.wordStop, hends, ↓reduceIte, WordStop.answer]
  . next hends =>
    simp only [Config.wordStop, hends, Config.opening]
    cases Config.opening.go (.char c :: rest) config.openers <;> rfl

end Lookahead

end TokenGrammar
