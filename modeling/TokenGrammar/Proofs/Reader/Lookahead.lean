import TokenGrammar.Lookahead
import TokenGrammar.Proofs.Token.Reprint

/-!
Looking for a delimiter takes the delimiter or nothing, and looking at the next character or for the end
of a word takes nothing (`Lookahead.probes_exactly`). All operations are compared by what is pending
after them, for which it makes no difference what stands on the stack and what the reader has taken back.
-/

namespace TokenGrammar

theorem Source.probe_chars (delimiter chars : List Char) :
    Source.probe delimiter (chars.map .char) =
      if delimiter <+: chars then .hit ((chars.drop delimiter.length).map .char) else .miss := by
  split
  . next hbegins =>
    obtain ⟨rest, rfl⟩ := hbegins
    rw [List.map_append, probe_append, List.drop_left]
  . next hbegins => exact Config.probe_eq_miss_iff.2 hbegins

namespace Config

def OpensComment (config : Config) (opener : String) : Prop :=
  config.lineComment = some opener ∨ ∃ closer, config.blockComment = some (opener, closer)

variable {config : Config}

theorem exists_mem_openers {p : List Char → Prop} :
    (∃ opener style, (opener, style) ∈ config.openers ∧ p opener) ↔
      ∃ opener, config.OpensComment opener ∧ opener ≠ "" ∧ p opener.toList := by
  simp only [openers_eq, List.mem_append, List.mem_map, List.mem_filter, Option.mem_toList, Prod.mk.injEq,
    decide_eq_true_eq, OpensComment]
  constructor
  . rintro ⟨_, _, hmem, hp⟩
    rcases hmem with ⟨opener, ⟨hline, hne⟩, rfl, rfl⟩ | ⟨⟨opener, closer⟩, ⟨hblock, hne⟩, rfl, rfl⟩
    . exact ⟨opener, Or.inl hline, hne, hp⟩
    . exact ⟨opener, Or.inr ⟨closer, hblock⟩, hne, hp⟩
  . rintro ⟨opener, hline | ⟨closer, hblock⟩, hne, hp⟩
    . exact ⟨_, _, Or.inl ⟨opener, ⟨hline, hne⟩, rfl, rfl⟩, hp⟩
    . exact ⟨_, _, Or.inr ⟨(opener, closer), ⟨hblock, hne⟩, rfl, rfl⟩, hp⟩

theorem endsWord_chars_iff {c : Char} {cs : List Char} :
    config.endsWord ((c :: cs).map .char) = true ↔
      Source.isLineBreak c = true ∨ config.isWhitespace c = true ∨ config.isQuote c = true ∨
        ∃ opener, config.OpensComment opener ∧ opener ≠ "" ∧ opener.toList <+: c :: cs := by
  rw [← exists_mem_openers (p := (· <+: c :: cs)), endsWord_iff]
  simp only [begins_chars_iff]
  rfl

end Config

namespace Lookahead

variable {s : Lookahead} {chars : List Char}

theorem peek_exact (h : s.pending = chars.map .char) :
    ∃ s', s.peek = (.ok chars.head?, s') ∧ s'.pending = s.pending := by
  rcases hpeek : s.peek with ⟨error | c, s'⟩
  . have hfault := peek_fault hpeek
    rw [h] at hfault
    cases chars <;> simp at hfault
  . obtain ⟨hafter, hnext⟩ := peek_ok hpeek
    refine ⟨s', ?_, hafter⟩
    rw [h] at hnext
    cases chars <;> simp_all [Source.next]

theorem eat_exact (h : s.pending = chars.map .char) (delimiter : List Char) :
    (s.eat delimiter).1 = .ok (decide (delimiter <+: chars)) ∧
      (s.eat delimiter).2.pending =
        (if delimiter <+: chars then chars.drop delimiter.length else chars).map .char := by
  have heat := s.eat_pending delimiter
  rw [h, Source.probe_chars, Prod.ext_iff] at heat
  by_cases hbegins : delimiter <+: chars <;> simpa [hbegins, Probe.answer] using heat

theorem endsWord_exact (h : s.pending = chars.map .char) (config : Config) (c : Char) :
    ∃ ends s', s.endsWord config c = (.ok ends, s') ∧ s'.pending = s.pending := by
  have hends := s.endsWord_pending config c
  rcases hresult : s.endsWord config c with ⟨result, s'⟩
  rw [hresult] at hends
  dsimp only at hends
  split at hends
  . simp_all
  . cases hopening : Config.opening.go s.pending
        (config.openers.filter fun opener => opener.1.head? = some c) with
    | fault error rest =>
      obtain ⟨cs, hcs⟩ := Config.opening_go_fault_readsTo hopening
      rw [h] at hcs
      have hmem : Read.fault error ∈ chars.map .char := by simp [hcs]
      simp at hmem
    | _ => simp_all [Opening.answer]

/--
Over a reader that does not fail, let `chars` be the characters on the stack and then those that the
reader still delivers. Looking for a delimiter takes it if they start with it, and otherwise changes
nothing. Looking at the next character or for the end of a word never changes them, and a word ends
before a line break, whitespace, a quote and what opens a comment. A source that is a value gives the same
answers.
-/
theorem probes_exactly (h : s.pending = chars.map .char) (config : Config) :
    (∀ delimiter, ∃ s', s.eat delimiter = (.ok (decide (delimiter <+: chars)), s') ∧
      s'.pending = (if delimiter <+: chars then chars.drop delimiter.length else chars).map .char ∧
      s.pending.probe delimiter = if delimiter <+: chars then .hit s'.pending else .miss) ∧
    (∃ s', s.peek = (.ok chars.head?, s') ∧ s'.pending = s.pending) ∧
    ∀ c, ∃ ends s', s.endsWord config c = (.ok ends, s') ∧ s'.pending = s.pending ∧
      (chars.head? = some c →
        (ends = true ↔ Source.isLineBreak c = true ∨ config.isWhitespace c = true ∨
          config.isQuote c = true ∨
          ∃ opener, config.OpensComment opener ∧ opener ≠ "" ∧ opener.toList <+: chars) ∧
        config.wordStop s.pending = if ends then .ends else .goesOn) := by
  refine ⟨?_, ?_, ?_⟩
  . intro delimiter
    obtain ⟨hresult, hafter⟩ := eat_exact h delimiter
    refine ⟨_, Prod.ext hresult rfl, hafter, ?_⟩
    rw [hafter, h, Source.probe_chars]
    split <;> rfl
  . exact peek_exact h
  . intro c
    obtain ⟨ends, s', hresult, hafter⟩ := endsWord_exact h config c
    refine ⟨ends, s', hresult, hafter, ?_⟩
    intro hc
    obtain ⟨cs, rfl⟩ := List.head?_eq_some_iff.1 hc
    have hends := endsWord_char h config
    rw [hresult, h, List.map_cons, ← List.map_cons, config.wordStop_chars] at hends
    rw [h, config.wordStop_chars, ← Config.endsWord_chars_iff]
    cases hstop : config.endsWord ((c :: cs).map .char) <;> simp_all [WordStop.answer]

def partlyRead : Lookahead :=
  { stack := ['/', '*'], reader := { upcoming := [.char '/', .char 'x'], last := some '#' } }

theorem probes_exactly_partlyRead :
    partlyRead.pending = ['/', '*', '/', 'x'].map .char ∧
      (∃ s', partlyRead.eat ['/', '*', '*'] = (.ok false, s') ∧ s'.pending = partlyRead.pending) ∧
      (∃ s', partlyRead.eat ['/', '*', '/'] = (.ok true, s') ∧ s'.pending = [.char 'x']) ∧
      ∃ s', partlyRead.endsWord { lineComment := some "//", blockComment := some ("/*/", "") } '/' =
        (.ok true, s') ∧ s'.pending = partlyRead.pending := by
  have h : partlyRead.pending = ['/', '*', '/', 'x'].map .char := rfl
  obtain ⟨heat, _, hends⟩ :=
    probes_exactly h { lineComment := some "//", blockComment := some ("/*/", "") }
  refine ⟨h, ?_, ?_, ?_⟩
  . obtain ⟨s', hresult, hafter, _⟩ := heat ['/', '*', '*']
    exact ⟨s', hresult, hafter⟩
  . obtain ⟨s', hresult, hafter, _⟩ := heat ['/', '*', '/']
    exact ⟨s', hresult, hafter⟩
  . obtain ⟨ends, s', hresult, hafter, hexact⟩ := hends '/'
    have hopens : ends = true := by
      rw [(hexact rfl).1]
      exact Or.inr (Or.inr (Or.inr ⟨"/*/", Or.inr ⟨"", rfl⟩, by decide, by decide⟩))
    rw [hopens] at hresult
    exact ⟨s', hresult, hafter⟩

end Lookahead

end TokenGrammar
