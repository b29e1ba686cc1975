import Mathlib.Data.List.Sort
import TokenGrammar.Text.Sorted

/-!
Lists in the order of the names of their elements hold the same elements as before, and if no two
elements have the same name there is one order only (`Text.sortByName_eq_of_perm`).
-/

namespace TokenGrammar.Text

variable {α : Type} {name : α → String}

theorem insertByName_eq (a : α) (elements : List α) :
    insertByName name a elements = elements.orderedInsert (fun a b => name a ≤ name b) a := by
  induction elements with
  | nil => rfl
  | cons b elements ih =>
    unfold insertByName
    rw [List.orderedInsert_cons, ih]

theorem sortByName_eq (elements : List α) :
    sortByName name elements = elements.insertionSort fun a b => name a ≤ name b := by
  unfold sortByName
  induction elements with
  | nil => rfl
  | cons a elements ih => rw [List.foldr_cons, ih, insertByName_eq, List.insertionSort_cons]

theorem perm_sortByName (name : α → String) (elements : List α) : (sortByName name elements).Perm elements := by
  rw [sortByName_eq]
  apply List.perm_insertionSort

theorem mem_sortByName {a : α} {elements : List α} : a ∈ sortByName name elements ↔ a ∈ elements :=
  (perm_sortByName name elements).mem_iff

theorem pairwise_sortByName (name : α → String) (elements : List α) :
    (sortByName name elements).Pairwise fun a b => name a ≤ name b := by
  have : Std.Total fun a b => name a ≤ name b := ⟨fun a b => String.le_total (name a) (name b)⟩
  have : IsTrans α fun a b => name a ≤ name b := ⟨fun _ _ _ => String.le_trans⟩
  rw [sortByName_eq]
  apply List.pairwise_insertionSort

theorem sortByName_eq_of_perm {elements elements' : List α} (h : elements.Perm elements')
    (hname : ∀ a ∈ elements, ∀ b ∈ elements, name a = name b → a = b) :
    sortByName name elements = sortByName name elements' := by
  have hperm := (perm_sortByName name elements).trans (h.trans (perm_sortByName name elements').symm)
  refine hperm.eq_of_pairwise ?_ (pairwise_sortByName name elements) (pairwise_sortByName name elements')
  intro a b ha hb hab hba
  rw [mem_sortByName] at ha hb
  exact hname a ha b (h.mem_iff.2 hb) (String.le_antisymm hab hba)

theorem find?_sortByName {p : α → Bool} {elements : List α} {a : α}
    (h : (sortByName name elements).find? p = some a) :
    a ∈ elements ∧ p a = true ∧ ∀ b ∈ elements, p b = true → name a ≤ name b := by
  obtain ⟨hp, before, after, hsplit, hbefore⟩ := List.find?_eq_some_iff_append.1 h
  refine ⟨?_, hp, ?_⟩
  . have hmem : a ∈ sortByName name elements := by simp [hsplit]
    exact mem_sortByName.1 hmem
  . intro b hb hpb
    have hsorted := pairwise_sortByName name elements
    have hmem : b ∈ sortByName name elements := mem_sortByName.2 hb
    rw [hsplit, List.mem_append, List.mem_cons] at hmem
    rw [hsplit, List.pairwise_append, List.pairwise_cons] at hsorted
    rcases hmem with hb | rfl | hb
    . have := hbefore b hb
      simp [hpb] at this
    . apply String.le_refl
    . exact hsorted.2.1.1 b hb

theorem nodup_eraseDups (names : List String) : names.eraseDups.Nodup := by
  induction hn : names.length using Nat.strongRecOn generalizing names with
  | ind n ih =>
    cases names with
    | nil => simp
    | cons a names =>
      rw [List.eraseDups_cons, List.nodup_cons]
      constructor
      . simp [List.mem_eraseDups]
      . have hle := List.length_filter_le (fun b => !b == a) names
        rw [List.length_cons] at hn
        exact ih _ (by omega) _ rfl

theorem pairwise_sortByName_eraseDups (names : List String) :
    (sortByName id names.eraseDups).Pairwise (· < ·) := by
  have hsorted := pairwise_sortByName id names.eraseDups
  have hnodup := (perm_sortByName id names.eraseDups).nodup_iff.2 (nodup_eraseDups names)
  refine (hsorted.and hnodup).imp ?_
  intro a b hab
  by_contra hlt
  exact hab.2 (String.le_antisymm hab.1 (String.not_lt.1 hlt))

end TokenGrammar.Text
