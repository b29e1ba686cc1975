import TokenGrammar.Graph

/-!
A search that finds no cycle leaves none: `Graph.ends_of_cycle?_eq_none` says that every path from every
node comes to an end.
-/

namespace TokenGrammar

namespace Graph

def Below (g : Graph) (m n : Nat) : Prop :=
  m ∈ g.next n

def Ends (g : Graph) (n : Nat) : Prop :=
  Acc g.Below n

-- Along the path, a successor that has not been followed yet is still among the edges of its node, and
-- the one that is being followed is the node before it in the list, given by `after`.
def Followed (g : Graph) : Option Nat → List Frame → Prop
  | _, [] => True
  | after, (node, edges) :: path =>
    (∀ m ∈ g.next node, m ∈ edges ∨ after = some m ∨ g.Ends m) ∧ g.Followed (some node) path

/-- What a search knows: where it has been, every path ends, but for the nodes it stands on. -/
structure Explored (g : Graph) (seen : List Nat) (path : List Frame) : Prop where
  followed : g.Followed none path
  settled : ∀ n ∈ seen, n ∈ path.map Prod.fst ∨ g.Ends n

theorem Followed.arrive {g : Graph} {node : Nat} {path : List Frame}
    (h : g.Followed (some node) path) (hnode : g.Ends node) : g.Followed none path := by
  cases path with
  | nil => trivial
  | cons frame path =>
    refine ⟨?_, h.2⟩
    intro m hm
    rcases h.1 m hm with hedge | hlast | hends
    . exact Or.inl hedge
    . rw [Option.some.injEq] at hlast
      rw [← hlast]
      exact Or.inr (Or.inr hnode)
    . exact Or.inr (Or.inr hends)

theorem Explored.pop {g : Graph} {seen : List Nat} {node : Nat} {path : List Frame}
    (h : g.Explored seen ((node, []) :: path)) : g.Explored seen path := by
  have hnode : g.Ends node := by
    constructor
    intro m hm
    rcases h.followed.1 m hm with hedge | hlast | hends
    . simp at hedge
    . simp at hlast
    . exact hends
  constructor
  . exact h.followed.2.arrive hnode
  . intro n hn
    rcases h.settled n hn with hpath | hends
    . rw [List.map_cons, List.mem_cons] at hpath
      rcases hpath with rfl | hpath
      . exact Or.inr hnode
      . exact Or.inl hpath
    . exact Or.inr hends

theorem Explored.skip {g : Graph} {seen : List Nat} {node child : Nat} {children : List Nat}
    {path : List Frame} (h : g.Explored seen ((node, child :: children) :: path))
    (hpath : child ∉ node :: path.map Prod.fst) (hseen : child ∈ seen) :
    g.Explored seen ((node, children) :: path) := by
  have hchild : g.Ends child := by
    rcases h.settled child hseen with hmem | hends
    . exact absurd hmem hpath
    . exact hends
  refine ⟨⟨?_, h.followed.2⟩, h.settled⟩
  intro m hm
  rcases h.followed.1 m hm with hedge | hrest
  . rw [List.mem_cons] at hedge
    rcases hedge with rfl | hedge
    . exact Or.inr (Or.inr hchild)
    . exact Or.inl hedge
  . exact Or.inr hrest

theorem Explored.enter {g : Graph} {seen : List Nat} {node child : Nat} {children : List Nat}
    {path : List Frame} (h : g.Explored seen ((node, child :: children) :: path)) :
    g.Explored (child :: seen) ((child, g.next child) :: (node, children) :: path) := by
  constructor
  . refine ⟨fun m hm => Or.inl hm, ?_, h.followed.2⟩
    intro m hm
    rcases h.followed.1 m hm with hedge | hlast | hends
    . rw [List.mem_cons] at hedge
      rcases hedge with rfl | hedge
      . exact Or.inr (Or.inl rfl)
      . exact Or.inl hedge
    . simp at hlast
    . exact Or.inr (Or.inr hends)
  . intro n hn
    rw [List.mem_cons] at hn
    rcases hn with rfl | hn
    . simp
    . rcases h.settled n hn with hpath | hends
      . left
        simp only [List.map_cons, List.mem_cons] at hpath ⊢
        exact Or.inr hpath
      . exact Or.inr hends

theorem search_ok {g : Graph} {seen seen' : List Nat} {path : List Frame}
    (he : g.Explored seen path) (h : g.search seen path = .ok seen') :
    (∀ n ∈ seen, n ∈ seen') ∧ ∀ n ∈ seen', g.Ends n := by
  induction seen, path using Graph.search.induct g with
  | case1 seen =>
    rw [search, Except.ok.injEq] at h
    rw [← h]
    refine ⟨fun n hn => hn, ?_⟩
    intro n hn
    simpa using he.settled n hn
  | case2 seen node path ih =>
    rw [search] at h
    exact ih he.pop h
  | case3 seen node child children path nodes hc =>
    have hpath : child ∈ node :: path.map Prod.fst := by simpa [nodes] using hc
    rw [search] at h
    simp [hpath] at h
  | case4 seen node child children path nodes hc hseen ih =>
    have hpath : child ∉ node :: path.map Prod.fst := by simpa [nodes] using hc
    have hold : child ∈ seen := by simpa using hseen
    rw [search] at h
    simp only [List.contains_iff_mem, hpath, hold, ↓reduceIte, ↓reduceDIte] at h
    exact ih (he.skip hpath hold) h
  | case5 seen node child children path nodes hc hseen _ ih =>
    have hpath : child ∉ node :: path.map Prod.fst := by simpa [nodes] using hc
    have hnew : child ∉ seen := by simpa using hseen
    rw [search] at h
    simp only [List.contains_iff_mem, hpath, hnew, ↓reduceIte, ↓reduceDIte] at h
    obtain ⟨hmono, hends⟩ := ih he.enter h
    refine ⟨?_, hends⟩
    intro n hn
    apply hmono
    simp [hn]

theorem cycle?_go_eq_none {g : Graph} {seen starts : List Nat} (hseen : ∀ n ∈ seen, g.Ends n)
    (h : cycle?.go g seen starts = none) : ∀ n ∈ starts, g.Ends n := by
  induction starts generalizing seen with
  | nil => simp
  | cons start starts ih =>
    unfold cycle?.go at h
    rw [List.forall_mem_cons]
    split at h
    . next hc =>
      refine ⟨hseen start (by simpa using hc), ih hseen h⟩
    . split at h
      . next seen' hsearch =>
        have he : g.Explored (start :: seen) [(start, g.next start)] := by
          refine ⟨⟨fun m hm => Or.inl hm, trivial⟩, ?_⟩
          intro n hn
          rw [List.mem_cons] at hn
          rcases hn with rfl | hn
          . simp
          . exact Or.inr (hseen n hn)
        obtain ⟨hmono, hends⟩ := search_ok he hsearch
        exact ⟨hends start (hmono start (by simp)), ih hends h⟩
      . simp at h

theorem ends_of_cycle?_eq_none {g : Graph} (h : g.cycle? = none) (n : Nat) : g.Ends n := by
  by_cases hn : n < g.size
  . apply cycle?_go_eq_none (by simp) h
    rw [List.mem_range]
    exact hn
  . constructor
    intro m hm
    rw [Below, g.next_eq_nil (by omega)] at hm
    simp at hm

end Graph

end TokenGrammar
