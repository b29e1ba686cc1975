import TokenGrammar.Proofs.Grammar.Defect

/-!
The search for the rules that the root reaches finds all of them and no others, however the rules refer
to each other, so that the names it does not come to are those without use
(`Arena.unreachableNames_exact`).
-/

namespace TokenGrammar

namespace Graph

structure Searching (g : Graph) (root : Nat) (seen pending : List Nat) : Prop where
  reached : ∀ n, n ∈ seen ∨ n ∈ pending → Relation.ReflTransGen g.Edge root n
  root : root ∈ seen ∨ root ∈ pending
  closed : ∀ m ∈ seen, ∀ n, g.Edge m n → n ∈ seen ∨ n ∈ pending

variable {g : Graph} {root node n : Nat} {seen pending : List Nat}

theorem searching_start (g : Graph) (root : Nat) : g.Searching root [] [root] := by
  constructor
  . intro n hn
    simp only [List.not_mem_nil, List.mem_singleton, false_or] at hn
    rw [hn]
  . simp
  . simp

-- A node may be pending more than once. It is visited the first time, and then passed over.
theorem Searching.skip (h : g.Searching root seen (node :: pending)) (hnode : node ∈ seen) :
    g.Searching root seen pending := by
  have hout : ∀ n, n ∈ seen ∨ n ∈ node :: pending → n ∈ seen ∨ n ∈ pending := by
    rintro n (hn | hn)
    . exact Or.inl hn
    . rcases List.mem_cons.1 hn with rfl | hn
      . exact Or.inl hnode
      . exact Or.inr hn
  constructor
  . rintro n (hn | hn)
    . exact h.reached n (Or.inl hn)
    . exact h.reached n (Or.inr (List.mem_cons_of_mem node hn))
  . exact hout root h.root
  . intro m hm n hedge
    exact hout n (h.closed m hm n hedge)

theorem Searching.visit (h : g.Searching root seen (node :: pending)) :
    g.Searching root (node :: seen) (g.next node ++ pending) := by
  have hout : ∀ n, n ∈ seen ∨ n ∈ node :: pending → n ∈ node :: seen ∨ n ∈ g.next node ++ pending := by
    intro n hn
    simp only [List.mem_cons, List.mem_append] at hn ⊢
    tauto
  constructor
  . intro n hn
    rw [List.mem_cons, List.mem_append] at hn
    rcases hn with (rfl | hn) | hn | hn
    . exact h.reached n (Or.inr List.mem_cons_self)
    . exact h.reached n (Or.inl hn)
    . exact (h.reached node (Or.inr List.mem_cons_self)).tail hn
    . exact h.reached n (Or.inr (List.mem_cons_of_mem node hn))
  . exact hout root h.root
  . intro m hm n hedge
    rcases List.mem_cons.1 hm with rfl | hm
    . exact Or.inr (List.mem_append_left pending hedge)
    . exact hout n (h.closed m hm n hedge)

theorem reachable_go_searching (h : g.Searching root seen pending) :
    g.Searching root (reachable.go g seen pending) [] := by
  induction seen, pending using reachable.go.induct g with
  | case1 seen =>
    rw [reachable.go]
    exact h
  | case2 seen node pending hseen ih =>
    rw [reachable.go, dif_pos hseen]
    exact ih (h.skip (List.contains_iff_mem.1 hseen))
  | case3 seen node pending hseen _ ih =>
    rw [reachable.go, dif_neg hseen]
    exact ih h.visit

theorem mem_reachable_iff : n ∈ g.reachable root ↔ Relation.ReflTransGen g.Edge root n := by
  have h : g.Searching root (g.reachable root) [] := reachable_go_searching (g.searching_start root)
  constructor
  . intro hn
    exact h.reached n (Or.inl hn)
  . intro hn
    induction hn with
    | refl => simpa using h.root
    | tail _ hedge ih => simpa using h.closed _ ih _ hedge

end Graph

theorem Definitions.pairwise_sorted {definitions : Definitions} (h : definitions.Distinct) :
    definitions.sorted.Pairwise fun a b => a.1 < b.1 := by
  have hsorted := Text.pairwise_sortByName Prod.fst definitions
  have hdistinct : definitions.sorted.Distinct :=
    ((Text.perm_sortByName Prod.fst definitions).map Prod.fst).nodup_iff.2 h
  rw [Distinct, List.Nodup, List.pairwise_map] at hdistinct
  refine (hsorted.and hdistinct).imp ?_
  intro a b hab
  by_contra hlt
  exact hab.2 (String.le_antisymm hab.1 (String.not_lt.1 hlt))

namespace Arena

inductive LeadsTo (arena : Arena) (id next : RuleId) : Prop where
  | child {rule : Rule} (hr : arena.get? id = some rule) (hc : next ∈ rule.children)
  | target {name : String} (hr : arena.get? id = some (.reference name (some next)))

theorem graph_next (arena : Arena) (id : RuleId) :
    arena.graph.next id = ((arena.get? id).map Rule.successors).getD [] := by
  simp [graph, Graph.next, get?, Array.getD_eq_getD_getElem?]

theorem graph_edge_iff {arena : Arena} {id next : RuleId} :
    arena.graph.Edge id next ↔ arena.LeadsTo id next := by
  rw [Graph.Edge, graph_next]
  constructor
  . intro h
    cases hrule : arena.get? id with
    | none => simp [hrule] at h
    | some rule =>
      rw [hrule, Option.map_some, Option.getD_some] at h
      cases rule with
      | reference name target =>
        cases target with
        | none => contradiction
        | some target =>
          obtain rfl : next = target := by simpa [Rule.successors] using h
          exact .target hrule
      | _ => exact .child hrule h
  . intro h
    cases h with
    | @child rule hr hc =>
      rw [hr]
      cases rule with
      | reference name target => contradiction
      | _ => exact hc
    | target hr => simp [hr, Rule.successors]

theorem mem_unreachableNames {arena : Arena} {definitions : Definitions} {root : RuleId} {name : String} :
    name ∈ arena.unreachableNames definitions root ↔
      ∃ id, (name, id) ∈ definitions ∧ ¬Relation.ReflTransGen arena.LeadsTo root id := by
  have hsteps : arena.graph.Edge = arena.LeadsTo := by
    funext id next
    exact propext graph_edge_iff
  simp only [unreachableNames, Definitions.sorted, List.mem_map, List.mem_filter, Text.mem_sortByName,
    Prod.exists, exists_and_right, exists_eq_right, Bool.not_eq_true', ← Bool.not_eq_true,
    List.contains_iff_mem, Graph.mem_reachable_iff, hsteps]

theorem unreachableNames_exact (arena : Arena) {definitions : Definitions} (hd : definitions.Distinct)
    (root : RuleId) :
    (arena.unreachableNames definitions root).Pairwise (· < ·) ∧
    ∀ name, name ∈ arena.unreachableNames definitions root ↔
      ∃ id, definitions.lookup name = some id ∧ ¬Relation.ReflTransGen arena.LeadsTo root id := by
  constructor
  . unfold unreachableNames
    rw [List.pairwise_map]
    exact (Definitions.pairwise_sorted hd).filter _
  . intro name
    rw [mem_unreachableNames]
    constructor
    . rintro ⟨id, hmem, hout⟩
      exact ⟨id, hd.lookup_of_mem hmem, hout⟩
    . rintro ⟨id, hlookup, hout⟩
      exact ⟨id, Definitions.mem_of_lookup hlookup, hout⟩

def tangled : Arena :=
  ⟨#[.reference "loop" (some 1), .sequence [0, 2, 2, 7], .reference "missing" none, .choice [3, 1]]⟩

def tangledNames : Definitions :=
  [("zulu", 3), ("loop", 1), ("outside", 7), ("alpha", 9)]

theorem unreachableNames_exact_tangled :
    tangledNames.Distinct ∧ tangled.unreachableNames tangledNames 0 = ["alpha", "zulu"] ∧
    ["alpha", "zulu"].Pairwise (· < ·) ∧
    ∀ name, name ∈ ["alpha", "zulu"] ↔
      ∃ id, tangledNames.lookup name = some id ∧ ¬Relation.ReflTransGen tangled.LeadsTo 0 id := by
  have hd : tangledNames.Distinct := by
    unfold Definitions.Distinct
    decide
  have hnames : tangled.unreachableNames tangledNames 0 = ["alpha", "zulu"] := by
    decide +kernel
  have hexact := tangled.unreachableNames_exact hd 0
  rw [hnames] at hexact
  exact ⟨hd, hnames, hexact⟩

end Arena

end TokenGrammar
