import Mathlib.Data.Finset.Card
import TokenGrammar.Proofs.Match.Lockstep

/-!
The bounds of a match are above what any run that ends can need. A run that ends within some bounds ends
in the same way within all larger ones (`Arena.matchWithin_mono`); the number of passes makes no
difference once it is above the pass rank (`Arena.matchWithin_passes`); and a run that is cut short at
the depth that `Arena.depthBound` gives is cut short at every depth (`Arena.matchWithin_agrees`).
-/

namespace TokenGrammar

namespace Tokenizer

def depthRank (t : Tokenizer) : Nat :=
  3 * t.left +
    match t.stage with
    | .idle => 0
    | .inside => 1
    | .past => 1
    | .atEnd => 2

theorem depthRank_le (t : Tokenizer) : t.depthRank ≤ 3 * t.passRank := by
  unfold depthRank passRank
  cases t.stage <;> simp only [reduceCtorEq, ↓reduceIte] <;> omega

theorem Forward.depthRank_lt {t t' : Tokenizer} (h : t.Forward t') :
    t'.view = t.view ∨ t'.depthRank < t.depthRank := by
  rcases h with h | h
  . have hleft := h.left
    rcases h.stage with hstage | hidle | ⟨hatEnd, hpast⟩
    . left
      simp only [view, h.config, h.peek, hstage]
    . cases hstage : t.stage with
      | idle =>
        left
        simp only [view, h.config, h.peek, hstage, hidle]
      | inside =>
        right
        simp only [depthRank, hleft, hstage, hidle]
        omega
      | atEnd =>
        right
        simp only [depthRank, hleft, hstage, hidle]
        omega
      | past =>
        right
        simp only [depthRank, hleft, hstage, hidle]
        omega
    . right
      simp only [depthRank, hleft, hatEnd, hpast]
      omega
  . right
    have := h.left
    unfold depthRank
    cases t.stage <;> cases t'.stage <;> dsimp only <;> omega

end Tokenizer

def Agree (a b : Attempt) : Prop :=
  a = b ∨ Endless a ∧ Endless b

theorem Agree.of_both {a b : Attempt} (h : Endless a ∨ a = b) (h' : Endless b ∨ b = a) : Agree a b := by
  rcases h with hend | heq
  . rcases h' with hend' | heq
    . exact Or.inr ⟨hend, hend'⟩
    . exact Or.inl heq.symm
  . exact Or.inl heq

theorem Agree.symm {a b : Attempt} (h : Agree a b) : Agree b a := by
  rcases h with heq | ⟨ha, hb⟩
  . exact Or.inl heq.symm
  . exact Or.inr ⟨hb, ha⟩

theorem Agree.trans {a b c : Attempt} (hab : Agree a b) (hbc : Agree b c) : Agree a c := by
  rcases hab with rfl | ⟨ha, hb⟩
  . exact hbc
  . rcases hbc with rfl | ⟨_, hc⟩
    . exact Or.inr ⟨ha, hb⟩
    . exact Or.inr ⟨ha, hc⟩

namespace Arena

theorem matchWithin_mono {arena : Arena} {passes depth depth' : Nat} (hd : depth ≤ depth') (id : RuleId)
    {t : Tokenizer} (ht : t.Consistent) :
    Endless (arena.matchWithin passes depth id t) ∨
      arena.matchWithin passes depth id t = arena.matchWithin passes depth' id t := by
  have hsim : ∀ (id : RuleId) (t t' : Tokenizer), At (fun _ => True) t t' →
      Simulates (At fun _ => True) Eq (arena.matchWithin passes depth id t)
        (arena.matchWithin passes depth' id t') := by
    induction depth generalizing depth' with
    | zero =>
      intro id _ _ _
      exact Or.inl ⟨id, rfl⟩
    | succ depth ih =>
      obtain ⟨depth', rfl⟩ : ∃ n, depth' = n + 1 := ⟨depth' - 1, by omega⟩
      intro id t t' ht
      apply matchWithin_simulates (at_lockstep fun _ _ _ _ => trivial) (at_synced _) _ _ id ht
      . intro _ _ _
        exact Or.inl rfl
      . exact ih (by omega)
  exact (hsim id t t ⟨rfl, ht, trivial⟩).eq

theorem matchWithin_passes {arena : Arena} {passes passes' depth : Nat} (id : RuleId) {t : Tokenizer}
    (ht : t.Consistent) (hp : t.passRank < passes) (hp' : t.passRank < passes') :
    Endless (arena.matchWithin passes depth id t) ∨
      arena.matchWithin passes depth id t = arena.matchWithin passes' depth id t := by
  let S := fun t : Tokenizer => t.passRank < passes ∧ t.passRank < passes'
  have hS : ∀ t u : Tokenizer, S t → t.Forward u → S u := by
    intro t u ht hf
    have := hf.passRank_le
    have := ht.1
    have := ht.2
    constructor
    . omega
    . omega
  have hsim : ∀ (id : RuleId) (t t' : Tokenizer), At S t t' →
      Simulates (At S) Eq (arena.matchWithin passes depth id t)
        (arena.matchWithin passes' depth id t') := by
    induction depth with
    | zero =>
      intro id _ _ _
      exact Or.inl ⟨id, rfl⟩
    | succ depth ih =>
      intro id t t' ht
      apply matchWithin_simulates (at_lockstep hS) (at_synced S) _ ih id ht
      rintro t t' ⟨rfl, _, hst⟩
      exact Or.inr hst
  exact (hsim id t t ⟨rfl, ht, hp, hp'⟩).eq

/-! Depths at which nothing changes any more. -/

def Stable (arena : Arena) (passes depth : Nat) (t : Tokenizer) : Prop :=
  ∀ id, Endless (arena.matchWithin passes (depth + 1) id t) ∨
    arena.matchWithin passes (depth + 1) id t = arena.matchWithin passes depth id t

theorem stable_iff {arena : Arena} {passes depth : Nat} {t : Tokenizer} (ht : t.Consistent) :
    arena.Stable passes depth t ↔
      ∀ id, Endless (arena.matchWithin passes depth id t) →
        Endless (arena.matchWithin passes (depth + 1) id t) := by
  constructor
  . intro h id hend
    rcases h id with hend' | heq
    . exact hend'
    . rw [heq]
      exact hend
  . intro h id
    rcases matchWithin_mono (Nat.le_succ depth) id ht with hend | heq
    . exact Or.inl (h id hend)
    . exact Or.inr heq.symm

theorem Stable.succ {arena : Arena} {passes depth : Nat} {t : Tokenizer}
    (h : ∀ u : Tokenizer, u.Consistent → t.Forward u → arena.Stable passes depth u)
    {u : Tokenizer} (hu : u.Consistent) (hf : t.Forward u) : arena.Stable passes (depth + 1) u := by
  have hS : ∀ u v : Tokenizer, t.Forward u → u.Forward v → t.Forward v := fun _ _ => Tokenizer.Forward.trans
  intro id
  apply Simulates.eq (S := t.Forward)
  apply matchWithin_simulates (at_lockstep hS) (at_synced _) _ _ id ⟨rfl, hu, hf⟩
  . intro _ _ _
    exact Or.inl rfl
  . rintro id v _ ⟨rfl, hv, hfv⟩
    rcases h v hv hfv id with hend | heq
    . exact Or.inl hend
    . rw [heq]
      exact Or.inr (same_at hS hfv (arena.matchWithin_leads passes depth id v hv))

theorem Stable.of_le {arena : Arena} {passes depth depth' : Nat} {t : Tokenizer} (ht : t.Consistent)
    (h : ∀ u : Tokenizer, u.Consistent → t.Forward u → arena.Stable passes depth u)
    (hd : depth ≤ depth') : arena.Stable passes depth' t := by
  have hall : ∀ u : Tokenizer, u.Consistent → t.Forward u → arena.Stable passes depth' u := by
    induction hd with
    | refl => exact h
    | step _ ih =>
      intro u hu hf
      exact Stable.succ ih hu hf
  exact hall t ht (Tokenizer.Forward.refl t)

theorem Stable.of_view_eq {arena : Arena} {passes depth : Nat} {t u : Tokenizer} (ht : t.Consistent)
    (hu : u.Consistent) (hv : u.view = t.view) (h : arena.Stable passes depth t) :
    arena.Stable passes depth u := by
  rw [stable_iff ht] at h
  rw [stable_iff hu]
  intro id hend
  have hback := arena.matchWithin_alike passes depth id ⟨hv.symm, ht, hu⟩
  have hforth := arena.matchWithin_alike passes (depth + 1) id ⟨hv, hu, ht⟩
  exact hforth.endless (h id (hback.endless hend))

-- A chain of sets that shrinks stops to shrink within as many steps as it has elements.
theorem exists_eq_succ_of_antitone {F : Nat → Finset Nat} (hF : ∀ i, F (i + 1) ⊆ F i) {n : Nat}
    (hn : (F 0).card ≤ n) : ∃ i ≤ n, F (i + 1) = F i := by
  by_contra hne
  simp only [not_exists, not_and] at hne
  have hcard : ∀ i ≤ n + 1, (F i).card + i ≤ n := by
    intro i hi
    induction i with
    | zero => exact hn
    | succ i ih =>
      have hlt := Finset.card_lt_card ((hF i).ssubset_of_ne (hne i (by omega)))
      have := ih (by omega)
      omega
  have := hcard (n + 1) (Nat.le_refl _)
  omega

noncomputable def cutShort (arena : Arena) (passes depth : Nat) (t : Tokenizer) : Finset Nat :=
  open Classical in
  (Finset.range arena.size).filter fun id => Endless (arena.matchWithin passes depth id t)

theorem mem_cutShort {arena : Arena} {passes depth : Nat} {t : Tokenizer} {id : RuleId} :
    id ∈ arena.cutShort passes depth t ↔
      id < arena.size ∧ Endless (arena.matchWithin passes depth id t) := by
  simp [cutShort]

theorem cutShort_succ_subset {arena : Arena} {passes depth : Nat} {t : Tokenizer} (ht : t.Consistent) :
    arena.cutShort passes (depth + 1) t ⊆ arena.cutShort passes depth t := by
  intro id hid
  rw [mem_cutShort] at hid ⊢
  refine ⟨hid.1, ?_⟩
  rcases matchWithin_mono (Nat.le_succ depth) id ht with hend | heq
  . exact hend
  . rw [heq]
    exact hid.2

theorem stable_of_cutShort_eq {arena : Arena} {passes depth : Nat} {t : Tokenizer} (ht : t.Consistent)
    (hd : 0 < depth)
    (h : arena.cutShort passes (depth + 1) t = arena.cutShort passes depth t) :
    arena.Stable passes depth t := by
  rw [stable_iff ht]
  intro id hend
  by_cases hid : id < arena.size
  . have := mem_cutShort.2 ⟨hid, hend⟩
    rw [← h] at this
    exact (mem_cutShort.1 this).2
  . -- Where the arena has no rule, a depth of one is enough.
    obtain ⟨depth, rfl⟩ : ∃ n, depth = n + 1 := ⟨depth - 1, by omega⟩
    have hnone : arena.get? id = none := by
      simp only [size] at hid
      simp only [get?]
      exact Array.getElem?_eq_none (Nat.le_of_not_lt hid)
    obtain ⟨rule, hrule⟩ := hend
    simp [matchWithin, hnone] at hrule

theorem stable_of_depthRank_lt {arena : Arena} {passes n : Nat} {t : Tokenizer} (ht : t.Consistent)
    (hn : t.depthRank < n) {depth : Nat} (hd : 1 + n * arena.size ≤ depth) :
    arena.Stable passes depth t := by
  induction n generalizing t depth with
  | zero => omega
  | succ n ih =>
    -- The rules that are cut short become fewer with the depth, until for one level they stay the same.
    let F := fun i => arena.cutShort passes (1 + n * arena.size + i) t
    have hF : ∀ i, F (i + 1) ⊆ F i := fun i => cutShort_succ_subset ht
    have hcard : (F 0).card ≤ arena.size := by
      have hsub : F 0 ⊆ Finset.range arena.size := by
        intro id hid
        exact Finset.mem_range.2 (mem_cutShort.1 hid).1
      simpa using Finset.card_le_card hsub
    obtain ⟨i, hi, heq⟩ := exists_eq_succ_of_antitone hF hcard
    have hstable : arena.Stable passes (1 + n * arena.size + i) t :=
      stable_of_cutShort_eq ht (by omega) heq
    rw [Nat.succ_mul] at hd
    apply Stable.of_le ht _ (show 1 + n * arena.size + i ≤ depth by omega)
    intro u hu hf
    rcases hf.depthRank_lt with hview | hlt
    . exact hstable.of_view_eq ht hu hview
    . exact ih hu (by omega) (by omega)

theorem passRank_lt_passBound {t : Tokenizer} (ht : t.Consistent) : t.passRank < passBound t := by
  have := Tokenizer.left_le_work ht
  unfold Tokenizer.passRank passBound
  omega

theorem stable_of_depthBound_le {arena : Arena} {passes depth : Nat} {t : Tokenizer} (ht : t.Consistent)
    (hd : arena.depthBound t ≤ depth) : arena.Stable passes depth t := by
  have hrank : t.depthRank < 3 * t.work + 1 := by
    have := t.depthRank_le
    have := Tokenizer.left_le_work ht
    unfold Tokenizer.passRank at *
    omega
  apply stable_of_depthRank_lt ht hrank
  apply Nat.le_trans _ hd
  calc 1 + (3 * t.work + 1) * arena.size
      ≤ (3 * t.work + 1) * (arena.size + 1) := by rw [Nat.mul_succ]; omega
    _ ≤ 4 * (t.work + 2) * (arena.size + 1) := Nat.mul_le_mul_right _ (by omega)
    _ = arena.depthBound t := by
      unfold depthBound
      rw [Nat.mul_assoc, Nat.mul_comm (t.work + 2), ← Nat.mul_assoc]

theorem endless_of_depthBound_le {arena : Arena} {passes depth : Nat} {id : RuleId} {t : Tokenizer}
    (ht : t.Consistent) (hd : arena.depthBound t ≤ depth)
    (h : Endless (arena.matchWithin passes (arena.depthBound t) id t)) :
    Endless (arena.matchWithin passes depth id t) := by
  induction hd with
  | refl => exact h
  | step hd ih => exact (stable_iff ht).1 (stable_of_depthBound_le ht hd) id ih

theorem matchWithin_agrees {arena : Arena} {passes depth : Nat} (id : RuleId) {t : Tokenizer}
    (ht : t.Consistent) (hp : passBound t ≤ passes) (hd : arena.depthBound t ≤ depth) :
    Agree (arena.matchRule id t) (arena.matchWithin passes depth id t) := by
  have hrank := passRank_lt_passBound ht
  have hpasses : Agree (arena.matchRule id t) (arena.matchWithin passes (arena.depthBound t) id t) := by
    apply Agree.of_both
    . exact matchWithin_passes id ht hrank (by omega)
    . exact matchWithin_passes id ht (by omega) hrank
  apply hpasses.trans
  rcases matchWithin_mono hd id ht with hend | heq
  . exact Or.inr ⟨hend, endless_of_depthBound_le ht hd hend⟩
  . exact Or.inl heq

theorem matchWithin_eq_of_matchRule {arena : Arena} {passes depth : Nat} {id : RuleId} {t t' : Tokenizer}
    {verdict : Bool} (ht : t.Consistent) (h : arena.matchRule id t = (.ok verdict, t'))
    (hp : passBound t ≤ passes) (hd : arena.depthBound t ≤ depth) :
    arena.matchWithin passes depth id t = (.ok verdict, t') := by
  rcases matchWithin_agrees id ht hp hd with heq | ⟨⟨rule, hrule⟩, _⟩
  . rw [← heq, h]
  . simp [h] at hrule

theorem matchRule_lockstep {R Q : Tokenizer → Tokenizer → Prop} {arena : Arena} (hl : Lockstep R Q)
    (hs : Synced R) (id : RuleId) {t t' : Tokenizer} (hr : R t t') :
    Simulates R Q (arena.matchRule id t) (arena.matchRule id t') := by
  let passes := max (passBound t) (passBound t')
  let depth := max (arena.depthBound t) (arena.depthBound t')
  obtain ⟨ht, ht'⟩ := hl.consistent hr
  have hwithin : Simulates R Q (arena.matchWithin passes depth id t)
      (arena.matchWithin passes depth id t') := matchWithin_lockstep hl hs passes depth id hr
  have hagree := matchWithin_agrees id ht (Nat.le_max_left _ _ : _ ≤ passes)
    (Nat.le_max_left _ _ : arena.depthBound t ≤ depth)
  have hagree' := matchWithin_agrees id ht' (Nat.le_max_right _ _ : _ ≤ passes)
    (Nat.le_max_right _ _ : arena.depthBound t' ≤ depth)
  rcases hagree with heq | ⟨hend, _⟩
  . rw [heq]
    rcases hagree' with heq' | ⟨_, hend'⟩
    . rw [heq']
      exact hwithin
    . exact Or.inl (hwithin.endless hend')
  . exact Or.inl hend

theorem matchRule_simulates (arena : Arena) (id : RuleId) (t t' : Tokenizer) (h : Alike t t') :
    Simulates Alike Alike (arena.matchRule id t) (arena.matchRule id t') := by
  exact matchRule_lockstep alike_lockstep alike_synced id h

theorem matchRule_eq_of_not_endless {arena : Arena} {passes depth : Nat} {id : RuleId} {t : Tokenizer}
    (ht : t.Consistent) (hp : passBound t ≤ passes)
    (h : ¬Endless (arena.matchWithin passes depth id t)) :
    arena.matchRule id t = arena.matchWithin passes depth id t := by
  let depth' := max depth (arena.depthBound t)
  have heq : arena.matchWithin passes depth id t = arena.matchWithin passes depth' id t :=
    (matchWithin_mono (Nat.le_max_left _ _) id ht).resolve_left h
  rw [heq] at h ⊢
  rcases matchWithin_agrees id ht hp (Nat.le_max_right depth (arena.depthBound t)) with hsame | ⟨_, hend⟩
  . exact hsame
  . exact absurd hend h

end Arena

end TokenGrammar
