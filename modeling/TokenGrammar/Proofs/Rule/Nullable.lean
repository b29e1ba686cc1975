import Mathlib.Data.Finset.Card
import TokenGrammar.Rule.Nullable

/-!
The rounds that look for nullable rules come to an end within their number: `Arena.nullable_eq` says
that the marks they leave are those of a further round.
-/

namespace TokenGrammar

namespace Rule

theorem isNullable_mono {marked marked' : RuleId → Bool}
    (h : ∀ id, marked id = true → marked' id = true) {rule : Rule}
    (hn : rule.isNullable marked = true) : rule.isNullable marked' = true := by
  cases rule with
  | sequence children =>
    simp only [isNullable, List.all_eq_true] at hn ⊢
    intro id hid
    exact h id (hn id hid)
  | choice children =>
    simp only [isNullable, List.any_eq_true] at hn ⊢
    obtain ⟨id, hid, hm⟩ := hn
    exact ⟨id, hid, h id hm⟩
  | repetition min max body =>
    simp only [isNullable, Bool.or_eq_true, List.all_eq_true] at hn ⊢
    rcases hn with hmin | hbody
    . exact Or.inl hmin
    . exact Or.inr fun id hid => h id (hbody id hid)
  | literal word => exact hn
  | charClass test => exact hn
  | token kind => exact hn
  | reference name target =>
    cases target with
    | none => exact hn
    | some target => exact h target hn

end Rule

namespace Arena

def marked (marks : Array Bool) : Finset Nat :=
  (Finset.range marks.size).filter fun id => marks.getD id false = true

theorem mem_marked {marks : Array Bool} {id : Nat} : id ∈ marked marks ↔ marks.getD id false = true := by
  simp only [marked, Finset.mem_filter, Finset.mem_range, and_iff_right_iff_imp]
  intro h
  by_contra hn
  simp [Array.getD, hn] at h

theorem eq_of_marked_eq {marks marks' : Array Bool} (hsize : marks.size = marks'.size)
    (h : marked marks = marked marks') : marks = marks' := by
  apply Array.ext hsize
  intro id hid hid'
  have : marks.getD id false = marks'.getD id false := by
    rw [Bool.eq_iff_iff, ← mem_marked, ← mem_marked, h]
  simpa [Array.getD, hid, hid'] using this

theorem size_nullableRound (arena : Arena) (marks : Array Bool) :
    (arena.nullableRound marks).size = arena.size := by
  simp [nullableRound, size]

theorem nullableRound_getD {arena : Arena} {id : RuleId} {rule : Rule} (h : arena.get? id = some rule)
    (marks : Array Bool) :
    (arena.nullableRound marks).getD id false = rule.isNullable fun id => marks.getD id false := by
  unfold get? at h
  simp [nullableRound, Array.getD_eq_getD_getElem?, h]

theorem nullableRound_getD_of_none {arena : Arena} {id : RuleId} (h : arena.get? id = none)
    (marks : Array Bool) : (arena.nullableRound marks).getD id false = false := by
  unfold get? at h
  simp [nullableRound, Array.getD_eq_getD_getElem?, h]

theorem nullableRound_mono (arena : Arena) {marks marks' : Array Bool}
    (h : marked marks ⊆ marked marks') :
    marked (arena.nullableRound marks) ⊆ marked (arena.nullableRound marks') := by
  intro id hid
  rw [mem_marked] at hid ⊢
  cases hrule : arena.get? id with
  | none => simp only [nullableRound_getD_of_none hrule, Bool.false_eq_true] at hid
  | some rule =>
    rw [nullableRound_getD hrule] at hid ⊢
    apply Rule.isNullable_mono _ hid
    intro id hid
    rw [← mem_marked] at hid ⊢
    exact h hid

-- A round that changes something marks one more rule, so that the marks and the rounds that are left
-- are together never fewer than the rules.
theorem nullable_go_eq {arena : Arena} {rounds : Nat} {marks : Array Bool}
    (hsize : marks.size = arena.size) (hgrow : marked marks ⊆ marked (arena.nullableRound marks))
    (hcount : arena.size ≤ (marked marks).card + rounds) :
    arena.nullableRound (nullable.go arena rounds marks) = nullable.go arena rounds marks := by
  induction rounds generalizing marks with
  | zero =>
    unfold nullable.go
    apply eq_of_marked_eq
    . rw [size_nullableRound, hsize]
    . apply Finset.Subset.antisymm _ hgrow
      have hall : marked marks = Finset.range arena.size := by
        apply Finset.eq_of_subset_of_card_le
        . rw [← hsize]
          apply Finset.filter_subset
        . simpa using hcount
      rw [hall, ← arena.size_nullableRound marks]
      apply Finset.filter_subset
  | succ rounds ih =>
    unfold nullable.go
    dsimp only
    split
    . assumption
    . next hne =>
      apply ih
      . apply size_nullableRound
      . exact arena.nullableRound_mono hgrow
      . have hlt : (marked marks).card < (marked (arena.nullableRound marks)).card := by
          apply Finset.card_lt_card
          apply hgrow.ssubset_of_ne
          intro heq
          apply hne
          apply eq_of_marked_eq _ heq.symm
          rw [size_nullableRound, hsize]
        omega

theorem nullableRound_nullable (arena : Arena) : arena.nullableRound arena.nullable = arena.nullable := by
  have hnone : marked (Array.replicate arena.size false) = ∅ := by
    ext id
    rw [mem_marked]
    simp [Array.getD_eq_getD_getElem?, Array.getElem?_replicate]
    split <;> simp
  apply nullable_go_eq
  . simp
  . simp [hnone]
  . omega

theorem nullable_eq {arena : Arena} {id : RuleId} {rule : Rule} (h : arena.get? id = some rule) :
    arena.nullable.getD id false = rule.isNullable fun id => arena.nullable.getD id false := by
  rw [← nullableRound_getD h, nullableRound_nullable]

end Arena

end TokenGrammar
