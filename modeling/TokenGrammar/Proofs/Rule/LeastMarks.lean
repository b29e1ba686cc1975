import TokenGrammar.Proofs.Rule.Nullable

/-!
The nullable rules are those for which this can be derived in finitely many steps (`Arena.Nullable`), so
that rules which are nullable only on the strength of each other are not. It makes no difference whether
the rules are marked round by round or in place, nor in which order they are visited
(`Arena.nullable_least`).
-/

namespace TokenGrammar

namespace Arena

inductive Nullable (arena : Arena) : RuleId → Prop where
  | sequence {id : RuleId} {children : List RuleId} (hrule : arena.get? id = some (.sequence children))
    (hall : ∀ child ∈ children, Nullable arena child) : Nullable arena id
  | choice {id child : RuleId} {children : List RuleId} (hrule : arena.get? id = some (.choice children))
    (hmem : child ∈ children) (hchild : Nullable arena child) : Nullable arena id
  | noPass {id : RuleId} {max : Option Nat} {body : List RuleId}
    (hrule : arena.get? id = some (.repetition 0 max body)) : Nullable arena id
  | body {id : RuleId} {min : Nat} {max : Option Nat} {body : List RuleId}
    (hrule : arena.get? id = some (.repetition min max body))
    (hall : ∀ child ∈ body, Nullable arena child) : Nullable arena id
  | endOfWord {id : RuleId} (hrule : arena.get? id = some (.charClass .endOfWord)) : Nullable arena id
  | endOfStream {id : RuleId} (hrule : arena.get? id = some (.token .endOfStream)) : Nullable arena id
  | reference {id target : RuleId} {name : String}
    (hrule : arena.get? id = some (.reference name (some target)))
    (htarget : Nullable arena target) : Nullable arena id

def Justified (arena : Arena) (marks : Array Bool) : Prop :=
  ∀ id, marks.getD id false = true → arena.Nullable id

def Settled (arena : Arena) (marks : Array Bool) : Prop :=
  ∀ id rule, arena.get? id = some rule → (rule.isNullable fun id => marks.getD id false) = true →
    marks.getD id false = true

variable {arena : Arena} {marks : Array Bool} {id : RuleId} {rule : Rule}

theorem Justified.nullable (h : arena.Justified marks) (hrule : arena.get? id = some rule)
    (hn : (rule.isNullable fun id => marks.getD id false) = true) : arena.Nullable id := by
  cases rule with
  | sequence children =>
    simp only [Rule.isNullable, List.all_eq_true] at hn
    apply Nullable.sequence hrule
    intro child hchild
    exact h child (hn child hchild)
  | choice children =>
    simp only [Rule.isNullable, List.any_eq_true] at hn
    obtain ⟨child, hmem, hchild⟩ := hn
    exact Nullable.choice hrule hmem (h child hchild)
  | repetition min max body =>
    simp only [Rule.isNullable, Bool.or_eq_true, decide_eq_true_eq, List.all_eq_true] at hn
    rcases hn with rfl | hbody
    . exact Nullable.noPass hrule
    . apply Nullable.body hrule
      intro child hchild
      exact h child (hbody child hchild)
  | literal word => simp [Rule.isNullable] at hn
  | charClass test =>
    simp only [Rule.isNullable, decide_eq_true_eq] at hn
    rw [hn] at hrule
    exact Nullable.endOfWord hrule
  | token kind =>
    simp only [Rule.isNullable, decide_eq_true_eq] at hn
    rw [hn] at hrule
    exact Nullable.endOfStream hrule
  | reference name target =>
    cases target with
    | none => simp [Rule.isNullable] at hn
    | some target => exact Nullable.reference hrule (h target hn)

theorem Settled.marks_of_nullable (h : arena.Settled marks) (hn : arena.Nullable id) :
    marks.getD id false = true := by
  induction hn with
  | sequence hrule _ ih =>
    apply h _ _ hrule
    simpa only [Rule.isNullable, List.all_eq_true] using ih
  | choice hrule hmem _ ih =>
    apply h _ _ hrule
    simp only [Rule.isNullable, List.any_eq_true]
    exact ⟨_, hmem, ih⟩
  | noPass hrule =>
    apply h _ _ hrule
    simp [Rule.isNullable]
  | body hrule _ ih =>
    apply h _ _ hrule
    simp only [Rule.isNullable, Bool.or_eq_true, List.all_eq_true]
    exact Or.inr ih
  | endOfWord hrule =>
    apply h _ _ hrule
    simp [Rule.isNullable]
  | endOfStream hrule =>
    apply h _ _ hrule
    simp [Rule.isNullable]
  | reference hrule _ ih =>
    apply h _ _ hrule
    simpa [Rule.isNullable] using ih

-- The two together leave no choice, so that all ways to such marks lead to the same ones.
theorem Justified.marks_iff (h : arena.Justified marks) (hs : arena.Settled marks) (id : RuleId) :
    marks.getD id false = true ↔ arena.Nullable id :=
  ⟨h id, hs.marks_of_nullable⟩

theorem justified_replicate (arena : Arena) (n : Nat) : arena.Justified (Array.replicate n false) := by
  intro id hid
  simp only [Array.getD_eq_getD_getElem?, Array.getElem?_replicate] at hid
  split at hid <;> simp at hid

/-! Marking round by round. -/

theorem Justified.nullableRound (h : arena.Justified marks) :
    arena.Justified (arena.nullableRound marks) := by
  intro id hid
  cases hrule : arena.get? id with
  | none => simp only [nullableRound_getD_of_none hrule, Bool.false_eq_true] at hid
  | some rule =>
    rw [nullableRound_getD hrule] at hid
    exact h.nullable hrule hid

theorem Justified.nullable_go (h : arena.Justified marks) (rounds : Nat) :
    arena.Justified (nullable.go arena rounds marks) := by
  induction rounds generalizing marks with
  | zero => exact h
  | succ rounds ih =>
    unfold nullable.go
    dsimp only
    split
    . exact h
    . exact ih h.nullableRound

theorem nullable_justified (arena : Arena) : arena.Justified arena.nullable :=
  (arena.justified_replicate arena.size).nullable_go arena.size

theorem nullable_settled (arena : Arena) : arena.Settled arena.nullable := by
  intro id rule hrule hn
  rw [nullable_eq hrule]
  exact hn

/-! Marking in place. -/

def markRule (arena : Arena) (marks : Array Bool) (id : RuleId) : Array Bool :=
  match arena.get? id with
  | none => marks
  | some rule =>
    if !marks.getD id false && rule.isNullable fun id => marks.getD id false then
      marks.setIfInBounds id true
    else marks

/-- Visits the rules in the given order. What is marked counts from the next rule on. -/
def markPass (arena : Arena) (order : List RuleId) (marks : Array Bool) : Array Bool :=
  order.foldl arena.markRule marks

theorem size_markRule (arena : Arena) (marks : Array Bool) (id : RuleId) :
    (arena.markRule marks id).size = marks.size := by
  unfold markRule
  split
  . rfl
  . split <;> simp

theorem size_markPass (arena : Arena) (order : List RuleId) (marks : Array Bool) :
    (arena.markPass order marks).size = marks.size := by
  unfold markPass
  induction order generalizing marks with
  | nil => rfl
  | cons id order ih => rw [List.foldl_cons, ih, size_markRule]

theorem markRule_getD (arena : Arena) (marks : Array Bool) (id other : RuleId) :
    (arena.markRule marks id).getD other false = true ↔
      marks.getD other false = true ∨
        other = id ∧ id < marks.size ∧ ∃ rule, arena.get? id = some rule ∧
          (rule.isNullable fun id => marks.getD id false) = true := by
  unfold markRule
  cases arena.get? id with
  | none => simp
  | some rule =>
    simp only [Option.some.injEq, exists_eq_left']
    generalize rule.isNullable (fun id => marks.getD id false) = nullable
    cases nullable with
    | false => simp
    | true =>
      simp only [Bool.and_true, Bool.not_eq_true', and_true]
      by_cases hid : other = id
      . subst hid
        split
        . by_cases hlt : other < marks.size <;> simp [hlt]
        . next hmark =>
          rw [Bool.not_eq_false] at hmark
          simp only [hmark, true_or]
      . split <;> simp [hid, Ne.symm hid]

theorem marked_subset_markRule (arena : Arena) (marks : Array Bool) (id : RuleId) :
    marked marks ⊆ marked (arena.markRule marks id) := by
  intro other hother
  rw [mem_marked] at hother ⊢
  exact (arena.markRule_getD marks id other).2 (Or.inl hother)

theorem marked_subset_markPass (arena : Arena) (order : List RuleId) (marks : Array Bool) :
    marked marks ⊆ marked (arena.markPass order marks) := by
  unfold markPass
  induction order generalizing marks with
  | nil => exact Finset.Subset.refl _
  | cons id order ih => exact (arena.marked_subset_markRule marks id).trans (ih _)

theorem Justified.markRule (h : arena.Justified marks) (id : RuleId) :
    arena.Justified (arena.markRule marks id) := by
  intro other hother
  rcases (arena.markRule_getD marks id other).1 hother with hother | ⟨rfl, _, rule, hrule, hn⟩
  . exact h other hother
  . exact h.nullable hrule hn

theorem Justified.markPass (h : arena.Justified marks) (order : List RuleId) :
    arena.Justified (arena.markPass order marks) := by
  unfold Arena.markPass
  induction order generalizing marks with
  | nil => exact h
  | cons id order ih => exact ih (h.markRule id)

-- The marks only grow, so a pass that ends where it began has changed nothing on its way.
theorem markRule_eq_of_markPass_eq {order : List RuleId} (h : arena.markPass order marks = marks)
    (hid : id ∈ order) : arena.markRule marks id = marks := by
  induction order with
  | nil => simp at hid
  | cons first order ih =>
    have hrest : arena.markPass (first :: order) marks = arena.markPass order (arena.markRule marks first) :=
      rfl
    have hfirst : arena.markRule marks first = marks := by
      apply eq_of_marked_eq (arena.size_markRule marks first)
      apply Finset.Subset.antisymm
      . calc marked (arena.markRule marks first)
          _ ⊆ marked (arena.markPass order (arena.markRule marks first)) :=
            arena.marked_subset_markPass order _
          _ = marked marks := by rw [← hrest, h]
      . exact arena.marked_subset_markRule marks first
    rcases List.mem_cons.1 hid with rfl | hid
    . exact hfirst
    . rw [hrest, hfirst] at h
      exact ih h hid

theorem settled_of_markPass_eq {order : List RuleId} (hsize : marks.size = arena.size)
    (horder : ∀ id < arena.size, id ∈ order) (h : arena.markPass order marks = marks) :
    arena.Settled marks := by
  intro id rule hrule hn
  have hlt : id < arena.size := (Array.getElem?_eq_some_iff.1 hrule).1
  rw [← markRule_eq_of_markPass_eq h (horder id hlt), markRule_getD]
  exact Or.inr ⟨rfl, hsize ▸ hlt, rule, hrule, hn⟩

theorem card_marked_lt_markPass {order : List RuleId} (h : arena.markPass order marks ≠ marks) :
    (marked marks).card < (marked (arena.markPass order marks)).card := by
  apply Finset.card_lt_card
  apply (arena.marked_subset_markPass order marks).ssubset_of_ne
  intro heq
  apply h
  exact eq_of_marked_eq (arena.size_markPass order marks) heq.symm

theorem card_marked_le (marks : Array Bool) : (marked marks).card ≤ marks.size := by
  calc (marked marks).card
    _ ≤ (Finset.range marks.size).card := Finset.card_filter_le _ _
    _ = marks.size := Finset.card_range _

def markPasses (arena : Arena) (order : List RuleId) (marks : Array Bool) : Array Bool :=
  let next := arena.markPass order marks
  if next = marks then marks else arena.markPasses order next
termination_by marks.size - (marked marks).card
decreasing_by
  have hlt := card_marked_lt_markPass ‹_›
  have hle := card_marked_le (arena.markPass order marks)
  rw [size_markPass] at hle ⊢
  omega

def nullableInPlace (arena : Arena) (order : List RuleId) : Array Bool :=
  arena.markPasses order (Array.replicate arena.size false)

theorem size_markPasses (arena : Arena) (order : List RuleId) (marks : Array Bool) :
    (arena.markPasses order marks).size = marks.size := by
  fun_induction arena.markPasses order marks with
  | case1 => rfl
  | case2 marks next hne ih => rw [ih, size_markPass]

theorem Justified.markPasses (h : arena.Justified marks) (order : List RuleId) :
    arena.Justified (arena.markPasses order marks) := by
  fun_induction arena.markPasses order marks with
  | case1 => exact h
  | case2 marks next hne ih => exact ih (h.markPass order)

theorem markPass_markPasses (arena : Arena) (order : List RuleId) (marks : Array Bool) :
    arena.markPass order (arena.markPasses order marks) = arena.markPasses order marks := by
  fun_induction arena.markPasses order marks with
  | case1 marks next heq => exact heq
  | case2 marks next hne ih => exact ih

/--
A rule is marked as nullable if and only if there is a derivation for it, wherever it stands among the
rules. If the rules are marked in place, the passes come to an end with the same marks, in whatever order
they visit the rules.
-/
theorem nullable_least (arena : Arena) :
    (∀ id, arena.nullable.getD id false = true ↔ arena.Nullable id) ∧
      ∀ order : List RuleId, (∀ id < arena.size, id ∈ order) →
        arena.nullableInPlace order = arena.nullable := by
  have hrounds := arena.nullable_justified.marks_iff arena.nullable_settled
  refine ⟨hrounds, ?_⟩
  intro order horder
  have hsize : (arena.nullableInPlace order).size = arena.size := by
    simp [nullableInPlace, size_markPasses]
  have hplace : arena.Justified (arena.nullableInPlace order) :=
    (arena.justified_replicate arena.size).markPasses order
  have hsettled : arena.Settled (arena.nullableInPlace order) :=
    settled_of_markPass_eq hsize horder (arena.markPass_markPasses order _)
  apply eq_of_marked_eq
  . rw [hsize, ← nullableRound_nullable, size_nullableRound]
  . ext id
    rw [mem_marked, mem_marked, hplace.marks_iff hsettled, hrounds]

-- The first two rules lead to nothing but each other. The third is nullable through rules that stand after
-- it.
def circular : Arena :=
  { rules := #[
      .reference "loop" (some 1), .choice [0], .sequence [3, 4], .repetition 0 none [0], .choice [1, 5],
      .charClass .endOfWord] }

theorem nullable_least_circular :
    (∀ id < circular.size, id ∈ [5, 4, 3, 2, 1, 0]) ∧
      circular.nullableInPlace [5, 4, 3, 2, 1, 0] = #[false, false, true, true, true, true] ∧
      ¬circular.Nullable 0 ∧ ¬circular.Nullable 1 ∧ circular.Nullable 2 := by
  have horder : ∀ id < circular.size, id ∈ [5, 4, 3, 2, 1, 0] := by decide
  have hmarks : circular.nullable = #[false, false, true, true, true, true] := by
    decide +kernel
  obtain ⟨hiff, hplace⟩ := nullable_least circular
  rw [hmarks] at hiff hplace
  refine ⟨horder, hplace _ horder, ?_, ?_, ?_⟩
  . rw [← hiff]
    decide
  . rw [← hiff]
    decide
  . rw [← hiff]
    decide

end Arena

end TokenGrammar
