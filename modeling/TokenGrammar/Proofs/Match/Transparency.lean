import TokenGrammar.Proofs.Match.Bounds
import TokenGrammar.Proofs.Tokenizer.Remaining

/-!
What a leaf for tokens leaves behind when it does not match. It puts the token back, but gives up the
active word. The rules that are matched next can tell the difference if and only if all characters of
that word have been read and its end has not, since then the end is never reported
(`Arena.matchRule_after_reject`).
-/

namespace TokenGrammar

structure View.Kin (v v' : View) : Prop where
  config : v.config = v'.config
  ahead : v.ahead = v'.ahead
  atEnd : v.stage = .atEnd ↔ v'.stage = .atEnd

namespace View

theorem Kin.refl (v : View) : v.Kin v := by
  exact ⟨rfl, rfl, Iff.rfl⟩

theorem Kin.symm {v v' : View} (h : v.Kin v') : v'.Kin v := by
  exact ⟨h.config.symm, h.ahead.symm, h.atEnd.symm⟩

theorem Kin.dropped {v v' : View} (h : v.Kin v') : v.dropped.Kin v'.dropped := by
  exact ⟨h.config, h.ahead, Iff.rfl⟩

theorem Kin.movedTo {v v' : View} (h : v.Kin v') (cursor : Cursor) :
    (v.movedTo cursor).Kin (v'.movedTo cursor) := by
  unfold View.movedTo
  rw [h.config]
  apply Kin.refl

theorem Kin.within {v v' : View} (h : v.Kin v') (line : Nat) (cs : List Char) (cursor : Cursor) :
    (v.within line cs cursor).Kin (v'.within line cs cursor) := by
  unfold View.within
  rw [h.config]
  apply Kin.refl

-- A word that is being read stays active when one of its characters is rejected.
theorem Kin.rejected {v v' : View} (h : v.Kin v') (hs : v.stage ≠ .atEnd) :
    (if v.stage = .inside then v else v.dropped).Kin
      (if v'.stage = .inside then v' else v'.dropped) := by
  have hs' : v'.stage ≠ .atEnd := fun hs' => hs (h.atEnd.2 hs')
  have hdrop (v : View) : v.dropped.stage ≠ .atEnd := by
    simp [View.dropped]
  split
  . split
    . exact h
    . exact ⟨h.config, h.ahead, iff_of_false hs (hdrop v')⟩
  . split
    . exact ⟨h.config, h.ahead, iff_of_false (hdrop v) hs'⟩
    . exact h.dropped

theorem Kin.acceptToken {v v' : View} (h : v.Kin v') (test : Token → Bool) :
    (v.acceptToken test).1 = (v'.acceptToken test).1 ∧
      (v.acceptToken test).2.Kin (v'.acceptToken test).2 := by
  unfold View.acceptToken
  rw [h.ahead]
  split
  . exact ⟨rfl, h.movedTo _⟩
  . split
    . exact ⟨rfl, h.movedTo _⟩
    . exact ⟨rfl, h.dropped⟩

theorem Kin.acceptWordChar {v v' : View} (h : v.Kin v') (test : WordRead → Bool) :
    (v.acceptWordChar test).1 = (v'.acceptWordChar test).1 ∧
      (v.acceptWordChar test).2.Kin (v'.acceptWordChar test).2 := by
  unfold View.acceptWordChar
  by_cases hs : v.stage = .atEnd
  . rw [if_pos hs, if_pos (h.atEnd.1 hs)]
    split
    . exact ⟨rfl, h.config, h.ahead, by simp⟩
    . exact ⟨rfl, h⟩
  . have hs' : v'.stage ≠ .atEnd := fun hs' => hs (h.atEnd.2 hs')
    rw [if_neg hs, if_neg hs', h.ahead]
    split
    . exact ⟨rfl, h.movedTo _⟩
    . split
      . split
        . exact ⟨rfl, h.within _ _ _⟩
        . exact ⟨rfl, h.rejected hs⟩
      . exact ⟨rfl, h.dropped⟩

end View

/-! Matches along token streams that differ in the active word only. -/

def Akin (t t' : Tokenizer) : Prop :=
  t.view.Kin t'.view ∧ t.Consistent ∧ t'.Consistent

def AkinWithin (passes : Nat) (t t' : Tokenizer) : Prop :=
  t.view.Kin t'.view ∧ t.Fits passes ∧ t'.Fits passes

theorem AkinWithin.akin {passes : Nat} {t t' : Tokenizer} (h : AkinWithin passes t t') : Akin t t' := by
  exact ⟨h.1, h.2.1.consistent, h.2.2.consistent⟩

theorem AkinWithin.symm {passes : Nat} {t t' : Tokenizer} (h : AkinWithin passes t t') :
    AkinWithin passes t' t := by
  exact ⟨h.1.symm, h.2.2, h.2.1⟩

theorem AkinWithin.left {passes : Nat} {t t' : Tokenizer} (h : AkinWithin passes t t') :
    t.left = t'.left := by
  exact congrArg Tokenizer.workAhead h.1.ahead

theorem AkinWithin.alike {passes : Nat} {t t' : Tokenizer} (h : AkinWithin passes t t')
    (hend : t.stage = .atEnd) : Alike t t' := by
  have hstage : t.stage = t'.stage := by
    rw [hend]
    exact (h.1.atEnd.1 hend).symm
  refine ⟨?_, h.akin.2⟩
  unfold Tokenizer.view
  rw [show t.config = t'.config from h.1.config, show t.peek = t'.peek from h.1.ahead, hstage]

-- Nothing is taken on either side, but on one of them the active word is given up.
theorem AkinWithin.settled {passes : Nat} {t t' u u' : Tokenizer} (h : AkinWithin passes t t')
    (hu : AkinWithin passes u u') (hf : t.Forward u) (hf' : t'.Forward u') (hend : t.stage ≠ .atEnd)
    (hm : u.mark = t.mark) (hm' : u'.mark ≠ t'.mark) :
    u.left = t.left ∧ u'.stage = .idle ∧ AkinWithin passes t u' := by
  have hl : u.left = t.left := ((hf.mark_eq_iff h.akin.2.1).1 hm).1
  have hl' : u'.left = t'.left := by
    rw [← hu.left, hl, h.left]
  have hidle : u'.stage = .idle := by
    rw [Ne, hf'.mark_eq_iff h.akin.2.2] at hm'
    by_cases hidle : t'.stage = .idle
    . exact (hf'.still hl').idle hidle
    . simpa [hl', hidle] using hm'
  have hstill := hf.still hl
  refine ⟨hl, hidle, ⟨?_, ?_, ?_⟩, h.2.1, hu.2.2⟩
  . exact hstill.config.symm.trans hu.1.config
  . exact hstill.peek.symm.trans hu.1.ahead
  . apply iff_of_false hend
    rw [show u'.view.stage = .idle from hidle]
    simp

theorem same_akin {passes : Nat} {t t' : Tokenizer} (h : AkinWithin passes t t') {a b : Attempt}
    (ha : t.Leads a) (hb : t'.Leads b) (hab : a.1 = b.1 ∧ a.2.view.Kin b.2.view) :
    Same (AkinWithin passes) Akin a b := by
  constructor
  . exact hab.1
  . intro v hv
    exact ⟨hab.2, h.2.1.of_leads ha hv, h.2.2.of_leads hb (hab.1 ▸ hv)⟩
  . intro _ _
    exact ⟨hab.2, ha.consistent, hb.consistent⟩

theorem akin_lockstep (passes : Nat) : Lockstep (AkinWithin passes) Akin := by
  constructor
  . intro t t' h
    exact h.akin.2
  . intro t t' h
    exact h.1.config
  . intro t t' h
    exact h.akin
  . intro t t' test _ h
    obtain ⟨_, ht, ht'⟩ := h.akin
    apply same_akin h (Tokenizer.acceptToken_leads ht test) (Tokenizer.acceptToken_leads ht' test)
    have hview := h.1.acceptToken test
    rw [← Tokenizer.acceptToken_view ht, ← Tokenizer.acceptToken_view ht'] at hview
    exact hview
  . intro t t' charClass h
    obtain ⟨_, ht, ht'⟩ := h.akin
    apply same_akin h (Tokenizer.acceptWordChar_leads ht _) (Tokenizer.acceptWordChar_leads ht' _)
    have hview := h.1.acceptWordChar (charClass.accepts t.config.caseSensitive)
    rw [← Tokenizer.acceptWordChar_view ht, ← Tokenizer.acceptWordChar_view ht'] at hview
    exact hview

theorem Simulates.akin_of_alike {passes : Nat} {t t' : Tokenizer} (h : AkinWithin passes t t')
    {a b : Attempt} (ha : t.Leads a) (hb : t'.Leads b) (hab : Simulates Alike Alike a b) :
    Simulates (AkinWithin passes) Akin a b := by
  rcases hab.cases with hend | ⟨e, u, u', rfl, rfl, hu⟩ | ⟨v, u, u', rfl, rfl, hu⟩
  . exact Or.inl hend
  . right
    apply same_akin h ha hb ⟨rfl, ?_⟩
    rw [hu.1]
    apply View.Kin.refl
  . right
    apply same_akin h ha hb ⟨rfl, ?_⟩
    rw [hu.1]
    apply View.Kin.refl

namespace Arena

section

variable {passes : Nat} {body : Tokenizer → Attempt}

-- The passes go on from `u`, where no word is active, but from `t'` they have come to an end, since the
-- mark has not changed. One more pass from `u` changes nothing and ends them, too.
theorem matchRepetition_idle (hlead : ∀ t : Tokenizer, t.Consistent → t.Leads (body t))
    (h : ∀ t t' : Tokenizer, AkinWithin passes t t' →
      Simulates (AkinWithin passes) Akin (body t) (body t'))
    (rule : RuleId) {min : Nat} {max : Option Nat} (hmax : ∀ m, max = some m → min ≤ m) {n : Nat}
    (hn : 0 < n) (count : Nat) {t' u u' : Tokenizer} (hbody : body t' = (.ok true, u'))
    (hleft : u'.left = t'.left) (hidle : u.stage = .idle) (htu : AkinWithin passes t' u)
    (huu : AkinWithin passes u' u) :
    ∃ w, matchRepetition rule min max body n count u = (.ok true, w) ∧ AkinWithin passes u' w := by
  obtain ⟨n, rfl⟩ : ∃ k, n = k + 1 := ⟨n - 1, by omega⟩
  unfold matchRepetition
  split
  . next hcount =>
    cases max with
    | none => simp at hcount
    | some m =>
      have := hmax m rfl
      simp only [Option.any_some, decide_eq_true_eq] at hcount
      rw [decide_eq_true (show min ≤ count by omega)]
      exact ⟨u, rfl, huu⟩
  . have hpass := hlead u htu.akin.2.2
    rcases (h t' u htu).cases with ⟨cut, hcut⟩ | ⟨e, v, w, ha, _, _⟩ | ⟨verdict, v, w, ha, hb, hvw⟩
    . simp [hbody] at hcut
    . simp [hbody] at ha
    . rw [hbody, Prod.mk.injEq, Except.ok.injEq] at ha
      obtain ⟨rfl, rfl⟩ := ha
      rw [hb] at hpass ⊢
      have hf : u.Forward w := hpass.forward true rfl
      have hl : w.left = u.left := by
        rw [← hvw.left, hleft, htu.left]
      have hm : w.mark = u.mark := by
        rw [hf.mark_eq_iff htu.akin.2.2]
        exact ⟨hl, iff_of_true ((hf.still hl).idle hidle) hidle⟩
      dsimp only
      rw [if_pos hm]
      exact ⟨w, rfl, hvw⟩

theorem matchRepetition_akin (hlead : ∀ t : Tokenizer, t.Consistent → t.Leads (body t))
    (halike : ∀ t t' : Tokenizer, Alike t t' → Simulates Alike Alike (body t) (body t'))
    (h : ∀ t t' : Tokenizer, AkinWithin passes t t' →
      Simulates (AkinWithin passes) Akin (body t) (body t'))
    (rule : RuleId) {min : Nat} {max : Option Nat} (hmax : ∀ m, max = some m → min ≤ m) {n n' : Nat}
    (count : Nat) {t t' : Tokenizer} (hr : AkinWithin passes t t') (hn : t.passRank < n)
    (hn' : t'.passRank < n') :
    Simulates (AkinWithin passes) Akin (matchRepetition rule min max body n count t)
      (matchRepetition rule min max body n' count t') := by
  induction n generalizing n' count t t' with
  | zero => omega
  | succ n ih =>
    obtain ⟨n', rfl⟩ : ∃ k, n' = k + 1 := ⟨n' - 1, by omega⟩
    obtain ⟨_, ht, ht'⟩ := hr.akin
    by_cases hend : t.stage = .atEnd
    . -- Both views are the same, so that the marks change together.
      apply Simulates.akin_of_alike hr (matchRepetition_leads hlead rule min max _ count ht)
        (matchRepetition_leads hlead rule min max _ count ht')
      apply matchRepetition_simulates alike_lockstep alike_synced hlead hlead halike rule min max count
        (hr.alike hend) (Or.inr ⟨hn, hn'⟩)
    . have hend' : t'.stage ≠ .atEnd := fun hend' => hend (hr.1.atEnd.2 hend')
      apply matchRepetition_pass hr (h t t' hr)
      intro u u' ha hb hr'
      have hf : t.Forward u := (ha ▸ hlead t ht).forward true rfl
      have hf' : t'.Forward u' := (hb ▸ hlead t' ht').forward true rfl
      by_cases hm : u.mark = t.mark
      . rw [if_pos hm]
        by_cases hm' : u'.mark = t'.mark
        . rw [if_pos hm']
          exact Or.inr (Same.ok hr' _)
        . rw [if_neg hm']
          have hlt' := hf'.passRank_lt ht' hm'
          obtain ⟨hstill, hidle, htu⟩ := hr.settled hr' hf hf' hend hm hm'
          obtain ⟨w, heq, hw⟩ := matchRepetition_idle hlead h rule hmax
            (show 0 < n' by omega) (count + 1) ha hstill hidle htu hr'
          rw [heq]
          exact Or.inr (Same.ok hw true)
      . rw [if_neg hm]
        have hlt := hf.passRank_lt ht hm
        by_cases hm' : u'.mark = t'.mark
        . rw [if_pos hm']
          obtain ⟨hstill, hidle, htu⟩ := hr.symm.settled hr'.symm hf' hf hend' hm' hm
          obtain ⟨w, heq, hw⟩ := matchRepetition_idle hlead h rule hmax
            (show 0 < n by omega) (count + 1) hb hstill hidle htu hr'.symm
          rw [heq]
          exact Or.inr (Same.ok hw.symm true)
        . rw [if_neg hm']
          have hlt' := hf'.passRank_lt ht' hm'
          exact ih (count + 1) hr' (by omega) (by omega)

end

def BoundsOrdered (arena : Arena) : Prop :=
  ∀ id min max body, arena.get? id = some (.repetition min (some max) body) → min ≤ max

theorem matchWithin_akin {arena : Arena} (hb : arena.BoundsOrdered) {passes : Nat} (depth : Nat)
    (id : RuleId) {t t' : Tokenizer} (h : AkinWithin passes t t') :
    Simulates (AkinWithin passes) Akin (arena.matchWithin passes depth id t)
      (arena.matchWithin passes depth id t') := by
  induction depth generalizing id t t' with
  | zero => exact Or.inl ⟨id, rfl⟩
  | succ depth ih =>
    apply matchWithin_step (akin_lockstep passes) _ _ id h
    . intro id min max body hrule t t' hr
      apply matchRepetition_akin _ _ _ id _ 0 hr hr.2.1.rank hr.2.2.rank
      . intro t ht
        exact matchAll_leads (arena.matchWithin_leads passes depth) body ht
      . intro t t' hr
        exact matchAll_simulates (fun id _ t t' => arena.matchWithin_alike passes depth id) hr
      . intro t t' hr
        exact matchAll_simulates (fun id _ t t' => ih id) hr
      . intro m hm
        exact hb id min m body (hm ▸ hrule)
    . intro id t t' hr
      exact ih id hr

end Arena

def SameOutcome (a b : Attempt) : Prop :=
  Endless a ∧ Endless b ∨
    a.1 = b.1 ∧ a.2.readAll.tokens = b.2.readAll.tokens ∧ a.2.readAll.error = b.2.readAll.error

theorem SameOutcome.endless_iff {a b : Attempt} (h : SameOutcome a b) : Endless a ↔ Endless b := by
  rcases h with ⟨ha, hb⟩ | ⟨hres, _⟩
  . exact iff_of_true ha hb
  . unfold Endless
    rw [hres]

theorem SameOutcome.of_agree {a b c d : Attempt} (hab : Agree a b) (hcd : Agree c d)
    (h : SameOutcome b d) : SameOutcome a c := by
  rcases hab with rfl | ⟨ha, hb⟩
  . rcases hcd with rfl | ⟨hc, hd⟩
    . exact h
    . exact Or.inl ⟨h.endless_iff.2 hd, hc⟩
  . rcases hcd with rfl | ⟨hc, _⟩
    . exact Or.inl ⟨ha, h.endless_iff.1 hb⟩
    . exact Or.inl ⟨ha, hc⟩

theorem SameOutcome.of_simulates {R Q : Tokenizer → Tokenizer → Prop}
    (hR : ∀ t t' : Tokenizer, R t t' → t.Alongside t')
    (hQ : ∀ t t' : Tokenizer, Q t t' → t.Alongside t') {a b : Attempt} (h : Simulates R Q a b)
    (h' : Simulates R Q b a) : SameOutcome a b := by
  rcases h.cases with hend | ⟨e, t, t', rfl, rfl, hq⟩ | ⟨v, t, t', rfl, rfl, hr⟩
  . exact Or.inl ⟨hend, h'.endless hend⟩
  . exact Or.inr ⟨rfl, Tokenizer.readAll_congr (hQ t t' hq)⟩
  . exact Or.inr ⟨rfl, Tokenizer.readAll_congr (hR t t' hr)⟩

theorem Akin.alongside {t t' : Tokenizer} (h : Akin t t') : t.Alongside t' := by
  exact ⟨h.2.1, h.2.2, h.1.config, h.1.ahead⟩

namespace Arena

theorem matchRule_sameOutcome {arena : Arena} {id : RuleId} {t t' : Tokenizer} (ht : t.Consistent)
    (ht' : t'.Consistent)
    (h : ∀ passes depth, t.Fits passes → t'.Fits passes →
      SameOutcome (arena.matchWithin passes depth id t) (arena.matchWithin passes depth id t')) :
    SameOutcome (arena.matchRule id t) (arena.matchRule id t') := by
  let passes := max (passBound t) (passBound t')
  let depth := max (arena.depthBound t) (arena.depthBound t')
  have hrank := passRank_lt_passBound ht
  have hrank' := passRank_lt_passBound ht'
  apply SameOutcome.of_agree
    (matchWithin_agrees id ht (Nat.le_max_left _ _ : _ ≤ passes) (Nat.le_max_left _ _ : _ ≤ depth))
    (matchWithin_agrees id ht' (Nat.le_max_right _ _ : _ ≤ passes) (Nat.le_max_right _ _ : _ ≤ depth))
  exact h passes depth ⟨ht, by omega⟩ ⟨ht', by omega⟩

theorem matchRule_akin {arena : Arena} (hb : arena.BoundsOrdered) (id : RuleId) {t t' : Tokenizer}
    (h : Akin t t') : SameOutcome (arena.matchRule id t) (arena.matchRule id t') := by
  apply matchRule_sameOutcome h.2.1 h.2.2
  intro passes depth hfits hfits'
  have hr : AkinWithin passes t t' := ⟨h.1, hfits, hfits'⟩
  exact SameOutcome.of_simulates (fun _ _ h => h.akin.alongside) (fun _ _ h => h.alongside)
    (matchWithin_akin hb depth id hr) (matchWithin_akin hb depth id hr.symm)

theorem matchRule_alike {arena : Arena} (id : RuleId) {t t' : Tokenizer} (h : Alike t t') :
    SameOutcome (arena.matchRule id t) (arena.matchRule id t') := by
  have halong : ∀ t t' : Tokenizer, Alike t t' → t.Alongside t' := fun t t' h =>
    ⟨h.2.1, h.2.2, congrArg View.config h.1, congrArg View.ahead h.1⟩
  have hsymm : Alike t' t := ⟨h.1.symm, h.2.2, h.2.1⟩
  exact SameOutcome.of_simulates halong halong (arena.matchRule_simulates id t t' h)
    (arena.matchRule_simulates id t' t hsymm)

end Arena

/-! What a leaf that does not match leaves behind. -/

def Rule.isTokenLeaf : Rule → Bool
  | literal _ => true
  | token _ => true
  | _ => false

def Rule.acceptsToken (caseSensitive : Bool) (rule : Rule) (token : Token) : Bool :=
  match rule with
  | .literal word => literalAccepts word caseSensitive token
  | .token kind => token.kind = kind
  | _ => false

namespace Tokenizer

theorem acceptToken_rejects {t t' : Tokenizer} (ht : t.Consistent) {test : Token → Bool}
    (h : t.acceptToken test = (.ok false, t')) :
    ∃ token cursor, t.peek = (.ok token, cursor) ∧ t' = t.held token cursor ∧
      t'.acceptToken test = (.ok false, t') := by
  have hcons : t'.Consistent := by
    have := (acceptToken_leads ht test).consistent
    rwa [h] at this
  rw [acceptToken_eq ht] at h
  cases hp : t.peek with
  | mk result cursor =>
    rw [hp] at h
    cases result with
    | error error => simp at h
    | ok token =>
      dsimp only at h
      split at h
      . simp at h
      . next htest =>
        simp only [Prod.mk.injEq, true_and] at h
        refine ⟨token, cursor, rfl, h.symm, ?_⟩
        subst h
        have hpeek : (t.held token cursor).peek = (.ok token, cursor) := rfl
        rw [acceptToken_eq hcons, hpeek]
        dsimp only
        rw [if_neg htest]
        rfl

theorem word_eq_none_iff {t : Tokenizer} : t.word = none ↔ t.stage = .idle := by
  cases hw : t.word with
  | none => simp [stage_of_none hw]
  | some word =>
    simp only [stage, hw]
    cases word.isExhausted <;> cases word.ended <;> simp

end Tokenizer

namespace Arena

theorem exists_depthBound_eq_succ (arena : Arena) (t : Tokenizer) : ∃ n, arena.depthBound t = n + 1 := by
  apply Nat.exists_eq_succ_of_ne_zero
  apply Nat.mul_ne_zero
  . omega
  . omega

theorem matchWithin_acceptsToken {arena : Arena} {leaf : RuleId} {rule : Rule}
    (hrule : arena.get? leaf = some rule) (hleaf : rule.isTokenLeaf = true) (passes depth : Nat)
    (t : Tokenizer) :
    arena.matchWithin passes (depth + 1) leaf t =
      t.acceptToken (rule.acceptsToken t.config.caseSensitive) := by
  cases rule with
  | literal word =>
    simp only [matchWithin, hrule]
    rfl
  | token kind =>
    simp only [matchWithin, hrule]
    rfl
  | _ => simp [Rule.isTokenLeaf] at hleaf

theorem matchWithin_tokenLeaf {rule : Rule} (hleaf : rule.isTokenLeaf = true) (caseSensitive : Bool) :
    ∃ test : Token → Bool, ∀ (arena : Arena) (id : RuleId) (passes depth : Nat) (t : Tokenizer),
      arena.get? id = some rule → t.config.caseSensitive = caseSensitive →
        arena.matchWithin passes (depth + 1) id t = t.acceptToken test := by
  refine ⟨rule.acceptsToken caseSensitive, ?_⟩
  intro arena id passes depth t hrule hcase
  rw [matchWithin_acceptsToken hrule hleaf, hcase]

-- An arena in which the rule at place 0 tells whether the end of a word is to be reported.
def endOfWord : Arena :=
  ⟨#[.charClass .endOfWord]⟩

theorem endOfWord_boundsOrdered : endOfWord.BoundsOrdered := by
  intro id min max body h
  cases id with
  | zero => simp [get?, endOfWord] at h
  | succ id => simp [get?, endOfWord] at h

theorem matchRule_endOfWord (t : Tokenizer) :
    endOfWord.matchRule 0 t =
      t.acceptWordChar (CharClass.endOfWord.accepts t.config.caseSensitive) := by
  obtain ⟨depth, hdepth⟩ := endOfWord.exists_depthBound_eq_succ t
  unfold matchRule
  rw [hdepth]
  rfl

theorem matchRule_endOfWord_of_atEnd {t : Tokenizer} (h : t.stage = .atEnd) :
    (endOfWord.matchRule 0 t).1 = .ok true := by
  obtain ⟨word, hw, he, hn⟩ := Tokenizer.exists_word_of_atEnd h
  rw [matchRule_endOfWord, Tokenizer.acceptWordChar_of_atEnd hw he hn]
  rfl

theorem matchRule_endOfWord_of_idle {t : Tokenizer} (ht : t.Consistent) (h : t.stage = .idle) :
    (endOfWord.matchRule 0 t).1 ≠ .ok true := by
  rw [matchRule_endOfWord, Tokenizer.acceptWordChar_of_outside ht (Or.inl h)]
  split
  . simp
  . split
    . simp [CharClass.accepts]
    . simp [CharClass.accepts]

-- An arena in which the rule at place 3 tells whether a word is active that the leaf gives up. The pass of
-- the repetition after which the mark is the same makes up for all that are missing, but a pass that changes
-- the mark counts as one.
def countingPasses (leaf : Rule) : Arena :=
  ⟨#[leaf, .sequence [], .choice [0, 1], .repetition 2 (some 1) [2]]⟩

theorem matchWithin_countingPasses {leaf : Rule} {t u : Tokenizer} {passes : Nat}
    (h : (countingPasses leaf).matchWithin (passes + 2) 1 0 t = (.ok false, u)) :
    (countingPasses leaf).matchWithin (passes + 2) 3 3 t = (.ok (u.mark = t.mark), u) := by
  have hempty : (countingPasses leaf).matchWithin (passes + 2) 1 1 u = (.ok true, u) := rfl
  have hbody : matchAll ((countingPasses leaf).matchWithin (passes + 2) 2) [2] t = (.ok true, u) := by
    have hchoice : (countingPasses leaf).matchWithin (passes + 2) 2 2 t =
        matchAny ((countingPasses leaf).matchWithin (passes + 2) 1) [0, 1] t := rfl
    simp only [matchAll, hchoice, matchAny, h, hempty]
  have hrep : (countingPasses leaf).matchWithin (passes + 2) 3 3 t =
      matchRepetition 3 2 (some 1) (matchAll ((countingPasses leaf).matchWithin (passes + 2) 2) [2])
        (passes + 2) 0 t := rfl
  rw [hrep, matchRepetition, hbody]
  by_cases hm : u.mark = t.mark
  . simp [hm]
  . simp [hm, matchRepetition]

theorem matchRule_countingPasses {leaf : Rule} {t u : Tokenizer} (ht : t.Consistent)
    (h : ∀ passes, (countingPasses leaf).matchWithin passes 1 0 t = (.ok false, u)) :
    (countingPasses leaf).matchRule 3 t = (.ok (u.mark = t.mark), u) := by
  have heq := matchWithin_countingPasses (h (t.work + 2))
  have hends : ¬Endless ((countingPasses leaf).matchWithin (passBound t) 3 3 t) := by
    rw [show passBound t = t.work + 2 from rfl, heq]
    rintro ⟨rule, hrule⟩
    simp at hrule
  rw [matchRule_eq_of_not_endless ht (Nat.le_refl _) hends]
  exact heq

theorem matchRule_choice {arena : Arena} {choice leaf r : RuleId} {t t' : Tokenizer} (ht : t.Consistent)
    (hchoice : arena.get? choice = some (.choice [leaf, r])) (ht' : t'.Consistent)
    (h : arena.matchRule leaf t = (.ok false, t')) :
    Agree (arena.matchRule choice t) (arena.matchRule r t') := by
  let passes := max (passBound t) (passBound t')
  let depth := max (arena.depthBound t) (arena.depthBound t')
  have hpasses : passBound t ≤ passes ∧ passBound t' ≤ passes :=
    ⟨Nat.le_max_left _ _, Nat.le_max_right _ _⟩
  have hdepth : arena.depthBound t ≤ depth ∧ arena.depthBound t' ≤ depth :=
    ⟨Nat.le_max_left _ _, Nat.le_max_right _ _⟩
  have hleaf : arena.matchWithin passes depth leaf t = (.ok false, t') :=
    matchWithin_eq_of_matchRule ht h hpasses.1 hdepth.1
  have heq : arena.matchWithin passes (depth + 1) choice t = arena.matchWithin passes depth r t' := by
    simp only [matchWithin, hchoice, matchAny, hleaf]
    split
    . next heq => rw [heq]
    . rfl
  apply (matchWithin_agrees choice ht hpasses.1 (Nat.le_succ_of_le hdepth.1)).trans
  rw [heq]
  exact (matchWithin_agrees r ht' hpasses.2 hdepth.2).symm

structure Rejects (leaf : Rule) (t t' : Tokenizer) : Prop where
  consistent : t.Consistent
  consistent' : t'.Consistent
  still : t.Still t'
  view : t'.view = t.view.dropped
  alone : ∀ passes, (countingPasses leaf).matchWithin passes 1 0 t = (.ok false, t')
  again : ∀ passes, (countingPasses leaf).matchWithin passes 1 0 t' = (.ok false, t')

theorem rejects_of_matchRule {arena : Arena} {leaf : RuleId} {rule : Rule}
    (hrule : arena.get? leaf = some rule) (hleaf : rule.isTokenLeaf = true) {t t' : Tokenizer}
    (ht : t.Consistent) (h : arena.matchRule leaf t = (.ok false, t')) : Rejects rule t t' := by
  obtain ⟨test, htest⟩ := matchWithin_tokenLeaf hleaf t.config.caseSensitive
  have htoken : t.acceptToken test = (.ok false, t') := by
    obtain ⟨depth, hdepth⟩ := arena.exists_depthBound_eq_succ t
    rw [← htest arena leaf (passBound t) depth t hrule rfl, ← hdepth]
    exact h
  obtain ⟨token, cursor, hpeek, rfl, hagain⟩ := Tokenizer.acceptToken_rejects ht htoken
  have hleads := Tokenizer.acceptToken_leads ht test
  rw [htoken] at hleads
  constructor
  . exact ht
  . exact hleads.consistent
  . exact Tokenizer.held_still hpeek
  . exact Tokenizer.view_held hpeek
  . intro passes
    rw [htest (countingPasses rule) 0 passes 0 t rfl rfl, htoken]
  . intro passes
    rw [htest (countingPasses rule) 0 passes 0 (t.held token cursor) rfl rfl, hagain]

namespace Rejects

variable {leaf : Rule} {t t' : Tokenizer}

theorem idle (h : Rejects leaf t t') : t'.stage = .idle := by
  exact congrArg View.stage h.view

theorem akin (h : Rejects leaf t t') (hs : t.stage ≠ .atEnd) : Akin t' t := by
  refine ⟨?_, h.consistent', h.consistent⟩
  rw [h.view]
  exact ⟨rfl, rfl, iff_of_false (by simp [View.dropped]) hs⟩

theorem alike (h : Rejects leaf t t') (hs : t.stage = .idle) : Alike t' t := by
  refine ⟨?_, h.consistent', h.consistent⟩
  rw [h.view]
  unfold View.dropped Tokenizer.view
  rw [hs]

theorem endOfWord_differs (h : Rejects leaf t t') (hs : t.stage = .atEnd) :
    ¬SameOutcome (endOfWord.matchRule 0 t') (endOfWord.matchRule 0 t) := by
  have hyes := matchRule_endOfWord_of_atEnd hs
  have hno := matchRule_endOfWord_of_idle h.consistent' h.idle
  rintro (⟨_, rule, hrule⟩ | ⟨hsame, _⟩)
  . simp [hyes] at hrule
  . exact hno (hsame.trans hyes)

theorem countingPasses_differs (h : Rejects leaf t t') (hs : t.stage ≠ .idle) :
    ¬SameOutcome ((countingPasses leaf).matchRule 3 t') ((countingPasses leaf).matchRule 3 t) := by
  have hmark : t'.mark ≠ t.mark := by
    rw [Ne, h.still.mark_eq_iff h.consistent]
    simp [h.idle, hs]
  have hno : (countingPasses leaf).matchRule 3 t = (.ok false, t') := by
    rw [matchRule_countingPasses h.consistent h.alone]
    simp [hmark]
  have hyes : (countingPasses leaf).matchRule 3 t' = (.ok true, t') := by
    rw [matchRule_countingPasses h.consistent' h.again]
    simp
  rw [hyes, hno]
  rintro (⟨⟨rule, hrule⟩, _⟩ | ⟨hsame, _⟩)
  . simp at hrule
  . simp at hsame

end Rejects

/--
After a leaf for tokens has not matched, all rules fare as they would have before it, and a choice of the
leaf and another rule is as good as that rule, unless a word has been read to its last character and its
end has not been read. Where a repetition may have a maximum below its minimum, they fare the same if
and only if no word was active.
-/
theorem matchRule_after_reject {arena : Arena} {leaf : RuleId} {rule : Rule}
    (hrule : arena.get? leaf = some rule) (hleaf : rule.isTokenLeaf = true) {t t' : Tokenizer}
    (ht : t.Reachable) (hreject : arena.matchRule leaf t = (.ok false, t')) :
    ((∀ arena' : Arena, arena'.BoundsOrdered →
        ∀ r, SameOutcome (arena'.matchRule r t') (arena'.matchRule r t)) ↔ t.stage ≠ .atEnd) ∧
    ((∀ (arena' : Arena) (r : RuleId), SameOutcome (arena'.matchRule r t') (arena'.matchRule r t)) ↔
      t.word = none) ∧
    (t.stage ≠ .atEnd → arena.BoundsOrdered → ∀ choice r,
      arena.get? choice = some (.choice [leaf, r]) →
        SameOutcome (arena.matchRule choice t) (arena.matchRule r t)) := by
  have h := rejects_of_matchRule hrule hleaf ht.consistent hreject
  refine ⟨⟨?_, ?_⟩, ⟨?_, ?_⟩, ?_⟩
  . intro hsame hs
    exact h.endOfWord_differs hs (hsame endOfWord endOfWord_boundsOrdered 0)
  . intro hs arena' hb r
    exact matchRule_akin hb r (h.akin hs)
  . intro hsame
    rw [Tokenizer.word_eq_none_iff]
    by_cases hs : t.stage = .idle
    . exact hs
    . exact absurd (hsame (countingPasses rule) 3) (h.countingPasses_differs hs)
  . intro hw arena' r
    exact matchRule_alike r (h.alike (Tokenizer.word_eq_none_iff.1 hw))
  . intro hs hb choice r hchoice
    apply SameOutcome.of_agree (matchRule_choice h.consistent hchoice h.consistent' hreject) (Or.inl rfl)
    exact matchRule_akin hb r (h.akin hs)

def lastCharRead : Tokenizer :=
  (Tokenizer.ofSource {} (Source.ofText "a b")).nextWordChar.2

def literalOrEndOfWord : Arena :=
  ⟨#[.literal "zzz", .charClass .endOfWord, .choice [0, 1]]⟩

theorem matchRule_after_reject_lastCharRead :
    (literalOrEndOfWord.matchRule 0 lastCharRead).1 = .ok false ∧
    (literalOrEndOfWord.matchRule 1 lastCharRead).1 = .ok true ∧
    (literalOrEndOfWord.matchRule 2 lastCharRead).1 = .ok false ∧
    ¬∀ arena : Arena, arena.BoundsOrdered → ∀ r,
      SameOutcome (arena.matchRule r (literalOrEndOfWord.matchRule 0 lastCharRead).2)
        (arena.matchRule r lastCharRead) := by
  have hreject : literalOrEndOfWord.matchRule 0 lastCharRead =
      (.ok false, (literalOrEndOfWord.matchRule 0 lastCharRead).2) := by
    decide +kernel
  have hreach : lastCharRead.Reachable := .nextWordChar (.start _ _)
  have hs : lastCharRead.stage = .atEnd := by
    decide +kernel
  refine ⟨by decide +kernel, by decide +kernel, by decide +kernel, ?_⟩
  rw [(matchRule_after_reject rfl rfl hreach hreject).1]
  exact fun h => h hs

end Arena

end TokenGrammar
