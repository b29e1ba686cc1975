/-!
Finite directed graphs, given by the successors of each node. A node that the graph does not list has no
successors. `Graph.reachable` collects the nodes that can be reached from one node, and `Graph.cycle?`
looks for a cycle, depth first and from the smallest node on.
-/

namespace TokenGrammar

structure Graph where
  successors : Array (List Nat)
  deriving DecidableEq, Repr

namespace Graph

def size (g : Graph) : Nat :=
  g.successors.size

def next (g : Graph) (node : Nat) : List Nat :=
  g.successors.getD node []

/--
The work that the nodes below `bound` still make: two units for each edge and one for the node itself,
for those that have not been seen.
-/
def work (g : Graph) (seen : List Nat) : Nat → Nat
  | 0 => 0
  | bound + 1 =>
    g.work seen bound + if seen.contains bound then 0 else 2 * (g.next bound).length + 1

theorem work_cons_le (g : Graph) (seen : List Nat) (node bound : Nat) :
    g.work (node :: seen) bound ≤ g.work seen bound := by
  induction bound with
  | zero => simp [work]
  | succ bound ih =>
    simp only [work, List.contains_cons]
    split <;> split <;> simp_all
    omega

theorem work_cons_add_le (g : Graph) {seen : List Nat} {node bound : Nat}
    (hlt : node < bound) (h : seen.contains node = false) :
    g.work (node :: seen) bound + (2 * (g.next node).length + 1) ≤ g.work seen bound := by
  induction bound with
  | zero => omega
  | succ bound ih =>
    simp only [work, List.contains_cons]
    by_cases hn : node = bound
    . subst hn
      have := g.work_cons_le seen node node
      simp only [BEq.rfl, Bool.true_or, ↓reduceIte, h, Bool.false_eq_true]
      omega
    . have := ih (by omega)
      have hb : (bound == node) = false := by simpa using fun h => hn h.symm
      simp only [hb, Bool.false_or]
      omega

theorem next_eq_nil (g : Graph) {node : Nat} (h : g.size ≤ node) : g.next node = [] := by
  simp only [size] at h
  simp [next, h]

theorem work_visit (g : Graph) {seen : List Nat} {node : Nat} (h : seen.contains node = false) :
    g.work (node :: seen) g.size + 2 * (g.next node).length ≤ g.work seen g.size := by
  by_cases hlt : node < g.size
  . have := g.work_cons_add_le hlt h
    omega
  . have := g.work_cons_le seen node g.size
    rw [g.next_eq_nil (by omega)]
    simpa using this

def reachable (g : Graph) (root : Nat) : List Nat :=
  go [] [root]
where
  go (seen : List Nat) : List Nat → List Nat
    | [] => seen
    | node :: pending =>
      if h : seen.contains node then go seen pending
      else
        have := g.work_visit (Bool.eq_false_iff.2 h)
        go (node :: seen) (g.next node ++ pending)
  termination_by pending => pending.length + g.work seen g.size
  decreasing_by
    . simp only [List.length_cons]
      omega
    . simp only [List.length_cons, List.length_append]
      omega

abbrev Frame := Nat × List Nat

def pathWork : List Frame → Nat
  | [] => 0
  | (_, edges) :: path => 2 * edges.length + 1 + pathWork path

/--
Follows the edges along a path, the last node of which comes first. The first edge back to a node of the
path closes a cycle, which is returned from that node on. If there is none, the nodes that were seen are
returned.
-/
def search (g : Graph) (seen : List Nat) : List Frame → Except (List Nat) (List Nat)
  | [] => .ok seen
  | (_, []) :: path => g.search seen path
  | (node, child :: children) :: path =>
    let nodes := node :: path.map Prod.fst
    if nodes.contains child then .error (nodes.takeWhile (· ≠ child) ++ [child]).reverse
    else if h : seen.contains child then g.search seen ((node, children) :: path)
    else
      have := g.work_visit (Bool.eq_false_iff.2 h)
      g.search (child :: seen) ((child, g.next child) :: (node, children) :: path)
termination_by path => pathWork path + g.work seen g.size
decreasing_by
  . simp only [pathWork]
    omega
  . simp only [pathWork, List.length_cons]
    omega
  . simp only [pathWork, List.length_cons]
    omega

def cycle? (g : Graph) : Option (List Nat) :=
  go [] (List.range g.size)
where
  go (seen : List Nat) : List Nat → Option (List Nat)
    | [] => none
    | start :: starts =>
      if seen.contains start then go seen starts
      else
        match g.search (start :: seen) [(start, g.next start)] with
        | .ok seen => go seen starts
        | .error cycle => some cycle

end Graph

end TokenGrammar
