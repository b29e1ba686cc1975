import Mathlib.Data.List.Chain
import TokenGrammar.Proofs.Graph.Acyclic

/-!
What a search returns as a cycle is one, so that a search finds a cycle if and only if there is one
(`Graph.cycle?_eq_none_iff`).
-/

namespace TokenGrammar

namespace Graph

def Edge (g : Graph) (m n : Nat) : Prop :=
  n ∈ g.next m

def IsCycle (g : Graph) (cycle : List Nat) : Prop :=
  ∃ first rest, cycle = first :: rest ∧ List.IsChain g.Edge (first :: rest ++ [first])

def Cyclic (g : Graph) : Prop :=
  ∃ n, Relation.TransGen g.Edge n n

theorem transGen_of_isChain {g : Graph} {first last : Nat} {nodes : List Nat}
    (h : List.IsChain g.Edge (first :: nodes ++ [last])) : Relation.TransGen g.Edge first last := by
  induction nodes generalizing first with
  | nil => exact Relation.TransGen.single (by simpa using h)
  | cons node nodes ih =>
    rw [List.cons_append, List.cons_append, List.isChain_cons_cons] at h
    exact Relation.TransGen.head h.1 (ih h.2)

theorem IsCycle.cyclic {g : Graph} {cycle : List Nat} (h : g.IsCycle cycle) : g.Cyclic := by
  obtain ⟨first, rest, _, hchain⟩ := h
  exact ⟨first, transGen_of_isChain hchain⟩

theorem not_cyclic_of_ends {g : Graph} (h : ∀ n, g.Ends n) : ¬g.Cyclic := by
  rintro ⟨n, hn⟩
  have hacc : Acc (Relation.TransGen g.Below) n := (h n).transGen
  have hback : Relation.TransGen g.Below n n := Relation.transGen_swap.1 hn
  induction hacc with
  | intro n _ ih => exact ih n hback hn hback

structure OnPath (g : Graph) (path : List Frame) : Prop where
  linked : List.IsChain g.Below (path.map Prod.fst)
  edges : ∀ frame ∈ path, ∀ child ∈ frame.2, g.Edge frame.1 child

theorem OnPath.skip {g : Graph} {node child : Nat} {children : List Nat} {path : List Frame}
    (h : g.OnPath ((node, child :: children) :: path)) : g.OnPath ((node, children) :: path) := by
  refine ⟨h.linked, ?_⟩
  have hedges := h.edges
  simp only [List.mem_cons, forall_eq_or_imp] at hedges ⊢
  exact ⟨hedges.1.2, hedges.2⟩

theorem OnPath.enter {g : Graph} {node child : Nat} {children : List Nat} {path : List Frame}
    (h : g.OnPath ((node, child :: children) :: path)) :
    g.OnPath ((child, g.next child) :: (node, children) :: path) := by
  have hchild : g.Edge node child := h.edges (node, child :: children) (by simp) child (by simp)
  constructor
  . simp only [List.map_cons, List.isChain_cons_cons]
    exact ⟨hchild, h.linked⟩
  . rw [List.forall_mem_cons]
    exact ⟨fun _ hmem => hmem, h.skip.edges⟩

theorem takeWhile_append_prefix {nodes : List Nat} {child : Nat} (h : child ∈ nodes) :
    nodes.takeWhile (· ≠ child) ++ [child] <+: nodes := by
  induction nodes with
  | nil => simp at h
  | cons node nodes ih =>
    by_cases heq : node = child
    . simp [heq]
    . have hmem : child ∈ nodes := by simpa [Ne.symm heq] using h
      simpa [heq] using ih hmem

theorem OnPath.closes {g : Graph} {node child : Nat} {children : List Nat} {path : List Frame}
    (h : g.OnPath ((node, child :: children) :: path)) (hc : child ∈ node :: path.map Prod.fst) :
    g.IsCycle ((node :: path.map Prod.fst).takeWhile (· ≠ child) ++ [child]).reverse := by
  have hchild : g.Edge node child := h.edges (node, child :: children) (by simp) child (by simp)
  obtain ⟨after, hafter⟩ := takeWhile_append_prefix hc
  have hlinked := h.linked
  rw [List.map_cons, ← hafter] at hlinked
  have hback : List.IsChain g.Below
      (child :: (node :: path.map Prod.fst).takeWhile (· ≠ child) ++ [child]) := by
    rw [List.cons_append]
    apply hlinked.left_of_append.cons
    intro m hm
    have hhead := congrArg List.head? hafter
    rw [List.head?_append, Option.mem_def.1 hm] at hhead
    obtain rfl : m = node := by simpa using hhead
    exact hchild
  rw [List.reverse_append]
  refine ⟨child, _, rfl, ?_⟩
  have hforth : List.IsChain g.Edge
      (child :: (node :: path.map Prod.fst).takeWhile (· ≠ child) ++ [child]).reverse :=
    List.isChain_reverse.2 hback
  simpa using hforth

theorem search_error {g : Graph} {seen cycle : List Nat} {path : List Frame}
    (hp : g.OnPath path) (h : g.search seen path = .error cycle) : g.IsCycle cycle := by
  induction seen, path using Graph.search.induct g with
  | case1 seen => simp [search] at h
  | case2 seen node path ih =>
    rw [search] at h
    refine ih ⟨?_, fun frame hmem => hp.edges frame (List.mem_cons_of_mem _ hmem)⟩ h
    exact hp.linked.tail
  | case3 seen node child children path nodes hc =>
    have hpath : child ∈ node :: path.map Prod.fst := by simpa [nodes] using hc
    rw [search] at h
    simp only [List.contains_iff_mem, hpath, ↓reduceIte, Except.error.injEq] at h
    rw [← h]
    exact hp.closes hpath
  | case4 seen node child children path nodes hc hseen ih =>
    have hpath : child ∉ node :: path.map Prod.fst := by simpa [nodes] using hc
    have hold : child ∈ seen := by simpa using hseen
    rw [search] at h
    simp only [List.contains_iff_mem, hpath, hold, ↓reduceIte, ↓reduceDIte] at h
    exact ih hp.skip h
  | case5 seen node child children path nodes hc hseen _ ih =>
    have hpath : child ∉ node :: path.map Prod.fst := by simpa [nodes] using hc
    have hnew : child ∉ seen := by simpa using hseen
    rw [search] at h
    simp only [List.contains_iff_mem, hpath, hnew, ↓reduceIte, ↓reduceDIte] at h
    exact ih hp.enter h

theorem cycle?_go_isCycle {g : Graph} {seen starts cycle : List Nat}
    (h : cycle?.go g seen starts = some cycle) : g.IsCycle cycle := by
  induction starts generalizing seen with
  | nil => simp [cycle?.go] at h
  | cons start starts ih =>
    unfold cycle?.go at h
    split at h
    . exact ih h
    . split at h
      . exact ih h
      . next hsearch =>
        rw [Option.some.injEq] at h
        rw [← h]
        refine search_error ⟨List.isChain_singleton _, ?_⟩ hsearch
        simp [Edge]

theorem isCycle_of_cycle? {g : Graph} {cycle : List Nat} (h : g.cycle? = some cycle) :
    g.IsCycle cycle := by
  exact cycle?_go_isCycle h

theorem cycle?_eq_none_iff {g : Graph} : g.cycle? = none ↔ ¬g.Cyclic := by
  constructor
  . intro h
    exact not_cyclic_of_ends (ends_of_cycle?_eq_none h)
  . intro h
    cases hc : g.cycle? with
    | none => rfl
    | some cycle => exact absurd (isCycle_of_cycle? hc).cyclic h

end Graph

end TokenGrammar
