import TokenGrammar.Proofs.Match.Bounds
import TokenGrammar.Proofs.Match.Verdict

/-!
Passes after which the mark is the same. A repetition stops after such a pass and counts its minimum as
reached. The next pass would do the same again, and so would all that follow, unless the pass has reported
the end of the active word: the mark does not show that, but an end is reported only once.
`Arena.matchAll_again` says that this is the only exception.
-/

namespace TokenGrammar

namespace Tokenizer

def ReportsEnd (t t' : Tokenizer) : Prop :=
  t.stage = .atEnd ∧ t'.stage = .past

-- The mark shows all that the leaves see, but for a report that the active word has ended.
theorem Forward.view_eq_of_mark_eq {t t' : Tokenizer} (ht : t.Consistent) (h : t.Forward t')
    (hm : t'.mark = t.mark) (hr : ¬t.ReportsEnd t') : t'.view = t.view := by
  obtain ⟨hleft, hidle⟩ := (h.mark_eq_iff ht).1 hm
  have hstill := h.still hleft
  have hstage : t'.stage = t.stage := by
    rcases hstill.stage with hsame | hdropped | hreported
    . exact hsame
    . rw [hdropped, hidle.1 hdropped]
    . exact absurd hreported hr
  simp only [view, hstill.config, hstill.peek, hstage]

-- Nothing is taken, and a word of which the end has been reported stays active.
structure Rests (t t' : Tokenizer) : Prop where
  still : t.Still t'
  past : t.stage = .past
  past' : t'.stage = .past

theorem Rests.mark_eq {t t' : Tokenizer} (h : t.Rests t') (ht : t.Consistent) : t'.mark = t.mark := by
  rw [h.still.mark_eq_iff ht, h.past, h.past']

theorem Forward.rests {t t' : Tokenizer} (ht : t.Consistent) (h : t.Forward t') (hs : t.stage = .past)
    (hm : t'.mark = t.mark) : t.Rests t' := by
  obtain ⟨hleft, hidle⟩ := (h.mark_eq_iff ht).1 hm
  have hstill := h.still hleft
  refine ⟨hstill, hs, ?_⟩
  rcases hstill.stage with hsame | hdropped | ⟨hatEnd, _⟩
  . rw [hsame, hs]
  . simp [hs, hdropped] at hidle
  . simp [hs] at hatEnd

theorem Rests.split {a b c : Tokenizer} (h : a.Rests c) (hab : a.Forward b) (hbc : b.Forward c) :
    a.Rests b ∧ b.Rests c := by
  have hleft := h.still.left
  have hle := hab.left_le
  have hle' := hbc.left_le
  have hab := hab.still (by omega)
  have hbc := hbc.still (by omega)
  have hb : b.stage = .past := by
    rcases hab.stage with hsame | hdropped | ⟨hatEnd, _⟩
    . rw [hsame, h.past]
    . have := hbc.idle hdropped
      simp [h.past'] at this
    . simp [h.past] at hatEnd
  exact ⟨⟨hab, h.past, hb⟩, ⟨hbc, hb, h.past'⟩⟩

theorem acceptToken_idle {t t' : Tokenizer} (ht : t.Consistent) {test : Token → Bool} {verdict : Bool}
    (h : t.acceptToken test = (.ok verdict, t')) : t'.stage = .idle := by
  rw [acceptToken_eq ht] at h
  split at h
  . simp at h
  . split at h
    . rw [← (Prod.mk.inj h).2]
      rfl
    . rw [← (Prod.mk.inj h).2]
      rfl

theorem acceptWordChar_not_rests {t t' : Tokenizer} (ht : t.Consistent) {test : WordRead → Bool}
    {verdict : Bool} (h : t.acceptWordChar test = (.ok verdict, t')) : ¬t.Rests t' := by
  intro hr
  have hview := acceptWordChar_view ht test
  rw [h] at hview
  have hstage : (t.view.acceptWordChar test).2.stage = .past := by
    rw [← hview]
    exact hr.past'
  have hpast : t.view.stage = .past := hr.past
  unfold View.acceptWordChar at hstage
  simp only [hpast, reduceCtorEq, ↓reduceIte] at hstage
  split at hstage
  . simp [View.movedTo] at hstage
  . split at hstage
    . split at hstage
      . simp only [View.within] at hstage
        split at hstage
        . simp at hstage
        . simp at hstage
      . simp [View.dropped] at hstage
    . simp [View.dropped] at hstage

end Tokenizer

theorem Alike.trans {a b c : Tokenizer} (hab : Alike a b) (hbc : Alike b c) : Alike a c := by
  exact ⟨hab.1.trans hbc.1, hab.2.1, hbc.2.2⟩

namespace Arena

/-!
Behind the end of a word every leaf takes something or gives the word up. A match that does neither has
come to no leaf, so that it does not depend on the token stream.
-/

/-- Where the first attempt lets a stream rest, the second comes to the same verdict on all streams. -/
def Inert (enter enter' : Tokenizer → Attempt) : Prop :=
  ∀ {t t' : Tokenizer} {verdict : Bool}, t.Consistent → t.Rests t' → enter t = (.ok verdict, t') →
    ∀ u : Tokenizer, u.Consistent → enter' u = (.ok verdict, u)

section

variable {enter enter' : RuleId → Tokenizer → Attempt} (he : EntersForward enter)
  (hi : ∀ id, Inert (enter id) (enter' id))

include he hi

theorem matchAll_inert (rules : List RuleId) : Inert (matchAll enter rules) (matchAll enter' rules) := by
  intro t t' verdict ht hr h u hu
  induction rules generalizing t with
  | nil =>
    simp only [matchAll, Prod.mk.injEq, Except.ok.injEq] at h
    rw [← h.1]
    rfl
  | cons rule rules ih =>
    rcases matchAll_cons_ok h with ⟨rfl, hrule⟩ | ⟨next, hrule, hrest⟩
    . simp only [matchAll, hi rule ht hr hrule u hu]
    . have hleads := he rule t ht
      rw [hrule] at hleads
      have hleads' := matchAll_leads he rules hleads.consistent
      rw [hrest] at hleads'
      obtain ⟨hfirst, hthen⟩ := hr.split (hleads.forward true rfl) (hleads'.forward verdict rfl)
      simp only [matchAll, hi rule ht hfirst hrule u hu]
      exact ih hleads.consistent hthen hrest

theorem matchAny_inert (rules : List RuleId) : Inert (matchAny enter rules) (matchAny enter' rules) := by
  intro t t' verdict ht hr h u hu
  induction rules generalizing t with
  | nil =>
    simp only [matchAny, Prod.mk.injEq, Except.ok.injEq] at h
    rw [← h.1]
    rfl
  | cons rule rules ih =>
    rcases matchAny_cons_ok h with ⟨rfl, hrule⟩ | ⟨next, hrule, hrest⟩
    . simp only [matchAny, hi rule ht hr hrule u hu]
    . have hleads := he rule t ht
      rw [hrule] at hleads
      have hleads' := matchAny_leads he rules hleads.consistent
      rw [hrest] at hleads'
      obtain ⟨hfirst, hthen⟩ := hr.split (hleads.forward false rfl) (hleads'.forward verdict rfl)
      simp only [matchAny, hi rule ht hfirst hrule u hu]
      exact ih hleads.consistent hthen hrest

end

-- One pass is all there is, since a pass that rests leaves the mark as it was.
theorem matchRepetition_inert {body body' : Tokenizer → Attempt}
    (hlead : ∀ t : Tokenizer, t.Consistent → t.Leads (body t)) (hi : Inert body body') (rule : RuleId)
    (min : Nat) (max : Option Nat) (passes passes' count : Nat) :
    Inert (matchRepetition rule min max body passes count)
      (matchRepetition rule min max body' (passes' + 1) count) := by
  intro t t' verdict ht hr h u hu
  cases passes with
  | zero => simp [matchRepetition] at h
  | succ passes =>
    have hpass := hlead t ht
    unfold matchRepetition at h ⊢
    split at h
    . next hmax =>
      rw [if_pos hmax, (Prod.mk.inj h).1]
    . next hmax =>
      rw [if_neg hmax]
      split at h
      . simp at h
      . next heq =>
        obtain ⟨hverdict, rfl⟩ := Prod.mk.inj h
        rw [hi ht hr heq u hu, hverdict]
      . next next heq =>
        rw [heq] at hpass
        have hrests : t.Rests next := by
          split at h
          . rw [(Prod.mk.inj h).2]
            exact hr
          . have hrest := matchRepetition_leads hlead rule min max passes (count + 1) hpass.consistent
            rw [h] at hrest
            exact (hr.split (hpass.forward true rfl) (hrest.forward verdict rfl)).1
        rw [if_pos (hrests.mark_eq ht)] at h
        rw [hi ht hrests heq u hu, ← (Prod.mk.inj h).1]
        simp

theorem matchWithin_inert (arena : Arena) (passes passes' depth : Nat) (id : RuleId) :
    Inert (arena.matchWithin passes depth id) (arena.matchWithin (passes' + 1) depth id) := by
  induction depth generalizing id with
  | zero =>
    intro t t' verdict _ _ h
    simp [matchWithin] at h
  | succ depth ih =>
    have he := arena.matchWithin_leads passes depth
    intro t t' verdict ht hr h u hu
    unfold matchWithin at h ⊢
    cases hrule : arena.get? id with
    | none => simp [hrule] at h
    | some rule =>
      simp only [hrule] at h ⊢
      cases rule with
      | sequence children => exact matchAll_inert he ih children ht hr h u hu
      | choice children => exact matchAny_inert he ih children ht hr h u hu
      | repetition min max body =>
        apply matchRepetition_inert _ (matchAll_inert he ih body) id min max passes passes' 0 ht hr h u hu
        intro t ht
        exact matchAll_leads he body ht
      | literal word =>
        have := Tokenizer.acceptToken_idle ht h
        simp [hr.past'] at this
      | charClass test => exact absurd hr (Tokenizer.acceptWordChar_not_rests ht h)
      | token kind =>
        have := Tokenizer.acceptToken_idle ht h
        simp [hr.past'] at this
      | reference name target =>
        cases target with
        | none => simp at h
        | some target => exact ih target ht hr h u hu

theorem matchRule_inert (arena : Arena) (id : RuleId) : Inert (arena.matchRule id) (arena.matchRule id) := by
  intro t t' verdict ht hr h u hu
  have heq := arena.matchWithin_inert (passBound t) (u.work + 1) (arena.depthBound t) id ht hr h u hu
  rw [matchRule_eq_of_not_endless hu (Nat.le_refl (passBound u)), ← heq]
  . rfl
  . rintro ⟨rule, hrule⟩
    rw [show passBound u = u.work + 1 + 1 from rfl, heq] at hrule
    simp at hrule

/-! Passes from a stream that the leaves cannot tell from the one before. -/

theorem matchAll_forward {arena : Arena} {rules : List RuleId} {t u : Tokenizer} {verdict : Bool}
    (ht : t.Consistent) (h : matchAll arena.matchRule rules t = (.ok verdict, u)) :
    u.Consistent ∧ t.Forward u := by
  have hleads := matchAll_leads arena.matchRule_leads rules ht
  rw [h] at hleads
  exact ⟨hleads.consistent, hleads.forward verdict rfl⟩

theorem matchAll_append_ok {enter : RuleId → Tokenizer → Attempt} {rules rules' : List RuleId}
    {t t' : Tokenizer} :
    matchAll enter (rules ++ rules') t = (.ok true, t') ↔
      ∃ u, matchAll enter rules t = (.ok true, u) ∧ matchAll enter rules' u = (.ok true, t') := by
  induction rules generalizing t with
  | nil => simp [matchAll]
  | cons rule rules ih =>
    simp only [List.cons_append, matchAll]
    split
    . exact ih
    . next hne =>
      constructor
      . intro h
        exact absurd h (hne t')
      . rintro ⟨u, h, _⟩
        exact absurd h (hne u)

section

variable {arena : Arena} {body : List RuleId} {t u : Tokenizer} (ht : t.Consistent)
  (h : matchAll arena.matchRule body t = (.ok true, u)) (hm : u.mark = t.mark)

include ht h hm

theorem matchAll_replicate_of_not_reportsEnd (hr : ¬t.ReportsEnd u) (n : Nat) :
    ∃ w, matchAll arena.matchRule (List.replicate n body).flatten u = (.ok true, w) ∧ Alike u w := by
  obtain ⟨hu, hforward⟩ := matchAll_forward ht h
  have htu : Alike t u := ⟨(hforward.view_eq_of_mark_eq ht hm hr).symm, ht, hu⟩
  induction n with
  | zero => exact ⟨u, rfl, rfl, hu, hu⟩
  | succ n ih =>
    obtain ⟨v, hv, huv⟩ := ih
    have hsim := matchAll_simulates (fun id (_ : id ∈ body) => arena.matchRule_simulates id) (htu.trans huv)
    rw [h] at hsim
    rcases hsim.cases with ⟨rule, hrule⟩ | ⟨e, _, _, he, _⟩ | ⟨verdict, _, w, hfirst, hnext, huw⟩
    . simp at hrule
    . simp at he
    . cases hfirst
      refine ⟨w, ?_, huw⟩
      rw [List.replicate_succ', List.flatten_append, matchAll_append_ok]
      exact ⟨v, hv, by simpa using hnext⟩

theorem matchAll_replicate_iff {n : Nat} (hn : 0 < n) :
    (∃ w, matchAll arena.matchRule (List.replicate n body).flatten u = (.ok true, w) ∧
      w.mark = u.mark) ↔ ¬t.ReportsEnd u := by
  have hu := (matchAll_forward ht h).1
  constructor
  . rintro ⟨w, hw, hmark⟩ ⟨hatEnd, hpast⟩
    obtain ⟨n, rfl⟩ : ∃ m, n = m + 1 := ⟨n - 1, by omega⟩
    rw [List.replicate_succ, List.flatten_cons, matchAll_append_ok] at hw
    obtain ⟨v, hv, hvw⟩ := hw
    obtain ⟨hv', huv⟩ := matchAll_forward hu hv
    have hvw' := (matchAll_forward hv' hvw).2
    have hrests := (((huv.trans hvw').rests hu hpast hmark).split huv hvw').1
    -- The second pass has come to no leaf, so neither has the first, and it has not reported the end.
    have hsame := matchAll_inert arena.matchRule_leads arena.matchRule_inert body hu hrests hv t ht
    rw [h, Prod.mk.injEq] at hsame
    rw [hsame.2, hatEnd] at hpast
    simp at hpast
  . intro hr
    obtain ⟨w, hw, huw⟩ := matchAll_replicate_of_not_reportsEnd ht h hm hr n
    refine ⟨w, hw, ?_⟩
    have hforward := (matchAll_forward hu hw).2
    have hstage : w.stage = u.stage := congrArg View.stage huw.1.symm
    have hleft : w.left = u.left := congrArg (fun v : View => Tokenizer.workAhead v.ahead) huw.1.symm
    rw [hforward.mark_eq_iff hu, hstage]
    exact ⟨hleft, Iff.rfl⟩

end

/-! The repetition. -/

theorem matchAll_matchWithin {arena : Arena} {rules : List RuleId} {t u : Tokenizer} {verdict : Bool}
    (ht : t.Consistent) (h : matchAll arena.matchRule rules t = (.ok verdict, u)) :
    ∃ P D, ∀ passes depth, P ≤ passes → D ≤ depth →
      matchAll (arena.matchWithin passes depth) rules t = (.ok verdict, u) := by
  induction rules generalizing t with
  | nil => exact ⟨0, 0, fun _ _ _ _ => h⟩
  | cons rule rules ih =>
    rcases matchAll_cons_ok h with ⟨rfl, hfirst⟩ | ⟨next, hfirst, hrest⟩
    . refine ⟨passBound t, arena.depthBound t, fun passes depth hp hd => ?_⟩
      simp only [matchAll, matchWithin_eq_of_matchRule ht hfirst hp hd]
    . have hleads := arena.matchRule_leads rule t ht
      rw [hfirst] at hleads
      obtain ⟨P, D, hall⟩ := ih hleads.consistent hrest
      refine ⟨max P (passBound t), max D (arena.depthBound t), fun passes depth hp hd => ?_⟩
      have hdone : arena.matchWithin passes depth rule t = (.ok true, next) :=
        matchWithin_eq_of_matchRule ht hfirst (by omega) (by omega)
      simp only [matchAll, hdone]
      exact hall passes depth (by omega) (by omega)

theorem matchRule_repetition_of_mark_eq {arena : Arena} {id : RuleId} {min : Nat} {max : Option Nat}
    {body : List RuleId} {t u : Tokenizer} (ht : t.Consistent)
    (hid : arena.get? id = some (.repetition min max body)) (hmax : max ≠ some 0)
    (h : matchAll arena.matchRule body t = (.ok true, u)) (hm : u.mark = t.mark) :
    arena.matchRule id t = (.ok true, u) := by
  obtain ⟨P, D, hall⟩ := matchAll_matchWithin ht h
  have hbody := hall (P + passBound t + 1) D (by omega) (Nat.le_refl D)
  have hrep : arena.matchWithin (P + passBound t + 1) (D + 1) id t = (.ok true, u) := by
    have hgo : ¬max.any (· ≤ 0) = true := by
      cases max with
      | none => simp
      | some m => simpa using hmax
    simp only [matchWithin, hid, matchRepetition]
    rw [if_neg hgo, hbody]
    simp [hm]
  rw [matchRule_eq_of_not_endless ht (by omega : passBound t ≤ P + passBound t + 1)]
  . exact hrep
  . rintro ⟨rule, hrule⟩
    simp [hrep] at hrule

theorem matchAll_again {arena : Arena} {body : List RuleId} {t u : Tokenizer} (ht : t.Reachable)
    (h : matchAll arena.matchRule body t = (.ok true, u)) (hm : u.mark = t.mark) :
    ((∃ w, matchAll arena.matchRule body u = (.ok true, w) ∧ w.mark = u.mark) ↔ ¬t.ReportsEnd u) ∧
    ∀ id min max, arena.get? id = some (.repetition min max body) → max ≠ some 0 →
      arena.matchRule id t = (.ok true, u) ∧
      (2 ≤ min →
        ((∃ w, matchAll arena.matchRule (List.replicate min body).flatten t = (.ok true, w) ∧
          w.mark = t.mark) ↔ ¬t.ReportsEnd u)) := by
  have hc := ht.consistent
  constructor
  . have hone := matchAll_replicate_iff hc h hm Nat.one_pos
    simpa using hone
  . intro id min max hid hmax
    refine ⟨matchRule_repetition_of_mark_eq hc hid hmax h hm, ?_⟩
    intro hmin
    obtain ⟨n, rfl⟩ : ∃ n, min = n + 1 := ⟨min - 1, by omega⟩
    rw [← matchAll_replicate_iff hc h hm (show 0 < n by omega), hm]
    simp only [List.replicate_succ, List.flatten_cons, matchAll_append_ok, h]
    simp

def endsOfWord : Arena :=
  ⟨#[.charClass .endOfWord, .repetition 2 none [0]]⟩

def beforeEnd : Tokenizer :=
  (Tokenizer.ofSource {} (Source.ofText "a")).nextWordChar.2

def afterEnd : Tokenizer :=
  (matchAll endsOfWord.matchRule [0] beforeEnd).2

theorem matchAll_again_endsOfWord :
    matchAll endsOfWord.matchRule [0] beforeEnd = (.ok true, afterEnd) ∧
    afterEnd.mark = beforeEnd.mark ∧
    (¬∃ w, matchAll endsOfWord.matchRule [0] afterEnd = (.ok true, w) ∧ w.mark = afterEnd.mark) ∧
    endsOfWord.matchRule 1 beforeEnd = (.ok true, afterEnd) ∧
    ¬∃ w, matchAll endsOfWord.matchRule [0, 0] beforeEnd = (.ok true, w) ∧ w.mark = beforeEnd.mark := by
  have hreach : beforeEnd.Reachable := .nextWordChar (.start _ _)
  have hpass : matchAll endsOfWord.matchRule [0] beforeEnd = (.ok true, afterEnd) := by
    decide +kernel
  have hmark : afterEnd.mark = beforeEnd.mark := by
    decide +kernel
  have hreports : beforeEnd.ReportsEnd afterEnd := by
    constructor
    . decide +kernel
    . decide +kernel
  obtain ⟨hagain, hrepetition⟩ := matchAll_again hreach hpass hmark
  obtain ⟨hmatch, htwice⟩ := hrepetition 1 2 none rfl (by simp)
  refine ⟨hpass, hmark, ?_, hmatch, ?_⟩
  . rw [hagain]
    exact fun h => h hreports
  . intro h
    exact (htwice (Nat.le_refl 2)).1 h hreports

end Arena

end TokenGrammar
