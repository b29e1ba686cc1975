import TokenGrammar.Proofs.Graph.Cycle
import TokenGrammar.Proofs.Text.Sorted
import TokenGrammar.Rule.LeftRecursion

/-!
Left recursion is reported if and only if some rule comes back to itself before anything has been taken,
and what is reported is the name of such a cycle (`Arena.leftRecursion?_enters`).
-/

namespace TokenGrammar

theorem Rule.mem_leading_iff {nullable : RuleId → Bool} {children : List RuleId} {id : RuleId} :
    id ∈ leading nullable children ↔
      ∃ before after, children = before ++ id :: after ∧ ∀ child ∈ before, nullable child = true := by
  induction children with
  | nil => simp [leading]
  | cons child children ih =>
    rw [leading, List.mem_cons]
    constructor
    . rintro (rfl | hrest)
      . exact ⟨[], children, rfl, by simp⟩
      . split at hrest
        . next hchild =>
          obtain ⟨before, after, rfl, hbefore⟩ := ih.1 hrest
          exact ⟨child :: before, after, rfl, List.forall_mem_cons.2 ⟨hchild, hbefore⟩⟩
        . simp at hrest
    . rintro ⟨before, after, hsplit, hbefore⟩
      cases before with
      | nil => exact .inl (List.cons.inj hsplit).1.symm
      | cons first before =>
        obtain ⟨rfl, hrest⟩ := List.cons.inj hsplit
        rw [List.forall_mem_cons] at hbefore
        rw [if_pos hbefore.1]
        exact .inr (ih.2 ⟨before, after, hrest, hbefore.2⟩)

namespace Arena

/--
A rule may enter the other before anything has been taken: all that it enters before that is nullable.
-/
inductive EntersFirst (arena : Arena) (id next : RuleId) : Prop where
  | sequence {before after : List RuleId} (hr : arena.get? id = some (.sequence (before ++ next :: after)))
    (hb : ∀ child ∈ before, arena.nullable.getD child false = true)
  | repetition {min : Nat} {max : Option Nat} {before after : List RuleId}
    (hr : arena.get? id = some (.repetition min max (before ++ next :: after)))
    (hb : ∀ child ∈ before, arena.nullable.getD child false = true)
  | choice {children : List RuleId} (hr : arena.get? id = some (.choice children)) (hc : next ∈ children)
  | reference {name : String} (hr : arena.get? id = some (.reference name (some next)))

theorem leftGraph_next (arena : Arena) (id : RuleId) :
    arena.leftGraph.next id =
      ((arena.get? id).map (Rule.leftEdges fun id => arena.nullable.getD id false)).getD [] := by
  simp [leftGraph, Graph.next, get?, Array.getD_eq_getD_getElem?]

theorem leftGraph_edge_iff {arena : Arena} {id next : RuleId} :
    arena.leftGraph.Edge id next ↔ arena.EntersFirst id next := by
  rw [Graph.Edge, leftGraph_next]
  constructor
  . intro h
    cases hrule : arena.get? id with
    | none => simp [hrule] at h
    | some rule =>
      rw [hrule, Option.map_some, Option.getD_some] at h
      cases rule with
      | sequence children =>
        obtain ⟨before, after, rfl, hbefore⟩ := Rule.mem_leading_iff.1 h
        exact .sequence hrule hbefore
      | repetition min max body =>
        obtain ⟨before, after, rfl, hbefore⟩ := Rule.mem_leading_iff.1 h
        exact .repetition hrule hbefore
      | choice children => exact .choice hrule h
      | reference name target =>
        obtain rfl : target = some next := by simpa [Rule.leftEdges] using h
        exact .reference hrule
      | literal word => simp [Rule.leftEdges] at h
      | charClass test => simp [Rule.leftEdges] at h
      | token kind => simp [Rule.leftEdges] at h
  . intro h
    cases h with
    | sequence hr hb =>
      rw [hr]
      exact Rule.mem_leading_iff.2 ⟨_, _, rfl, hb⟩
    | repetition hr hb =>
      rw [hr]
      exact Rule.mem_leading_iff.2 ⟨_, _, rfl, hb⟩
    | choice hr hc =>
      rw [hr]
      exact hc
    | reference hr => simp [hr, Rule.leftEdges]

def RefersAt (arena : Arena) (id : RuleId) : Prop :=
  ∃ name target, arena.get? id = some (.reference name target)

/--
The name of a cycle is that of its first reference. Without a reference on it, it is the smallest name
that is defined as one of its rules, and without that the place of its first rule.
-/
inductive Called (arena : Arena) (definitions : Definitions) (cycle : List RuleId) : String → Prop where
  | reference {before after : List RuleId} {id : RuleId} {name : String} {target : Option RuleId}
    (hc : cycle = before ++ id :: after) (hr : arena.get? id = some (.reference name target))
    (hb : ∀ earlier ∈ before, ¬arena.RefersAt earlier) : Called arena definitions cycle name
  | definition {name : String} {id : RuleId} (hr : ∀ id ∈ cycle, ¬arena.RefersAt id)
    (hd : (name, id) ∈ definitions) (hc : id ∈ cycle)
    (hleast : ∀ name' id', (name', id') ∈ definitions → id' ∈ cycle → name ≤ name') :
    Called arena definitions cycle name
  | place {id : RuleId} {rest : List RuleId} (hc : cycle = id :: rest)
    (hr : ∀ id ∈ cycle, ¬arena.RefersAt id) (hd : ∀ name id', (name, id') ∈ definitions → id' ∉ cycle) :
    Called arena definitions cycle (RuleId.label id)

theorem referenceName?_eq_some_iff {arena : Arena} {id : RuleId} {name : String} :
    (arena.get? id).bind Rule.referenceName? = some name ↔
      ∃ target, arena.get? id = some (.reference name target) := by
  cases arena.get? id with
  | none => simp
  | some rule => cases rule <;> simp [Rule.referenceName?]

theorem referenceName?_eq_none_iff {arena : Arena} {id : RuleId} :
    (arena.get? id).bind Rule.referenceName? = none ↔ ¬arena.RefersAt id := by
  rw [Option.eq_none_iff_forall_ne_some]
  simp only [ne_eq, referenceName?_eq_some_iff, RefersAt, not_exists]

theorem cycleName_called (arena : Arena) (definitions : Definitions) (first : RuleId) (rest : List RuleId) :
    arena.Called definitions (first :: rest) (arena.cycleName definitions (first :: rest)) := by
  unfold cycleName
  split
  . next hname =>
    obtain ⟨before, id, after, hsplit, hid, hbefore⟩ := List.findSome?_eq_some_iff.1 hname
    obtain ⟨target, hid⟩ := referenceName?_eq_some_iff.1 hid
    exact .reference hsplit hid fun earlier h => referenceName?_eq_none_iff.1 (hbefore earlier h)
  . next hname =>
    have hr : ∀ id ∈ first :: rest, ¬arena.RefersAt id := by
      intro id hid
      exact referenceName?_eq_none_iff.1 (List.findSome?_eq_none_iff.1 hname id hid)
    split
    . next hfind =>
      obtain ⟨hd, hc, hleast⟩ := Text.find?_sortByName hfind
      refine .definition hr hd (List.contains_iff_mem.1 hc) ?_
      intro name' id' hmem hid
      exact hleast (name', id') hmem (List.contains_iff_mem.2 hid)
    . next hfind =>
      refine .place rfl hr ?_
      intro name id hmem hid
      have hsorted : (name, id) ∈ definitions.sorted := Text.mem_sortByName.2 hmem
      exact List.find?_eq_none.1 hfind _ hsorted (List.contains_iff_mem.2 hid)

theorem leftRecursion?_enters (arena : Arena) (definitions : Definitions) :
    ((arena.leftRecursion? definitions).isSome ↔ ∃ id, Relation.TransGen arena.EntersFirst id id) ∧
    ∀ name, arena.leftRecursion? definitions = some name →
      ∃ first rest, arena.leftGraph.cycle? = some (first :: rest) ∧
        List.IsChain arena.EntersFirst (first :: rest ++ [first]) ∧
        arena.Called definitions (first :: rest) name := by
  have hedges : arena.leftGraph.Edge = arena.EntersFirst := by
    funext id next
    exact propext leftGraph_edge_iff
  constructor
  . rw [leftRecursion?, Option.isSome_map, ← hedges, Option.isSome_iff_ne_none, ne_eq,
      Graph.cycle?_eq_none_iff, not_not]
    rfl
  . intro name h
    obtain ⟨cycle, hcycle, rfl⟩ := Option.map_eq_some_iff.1 h
    obtain ⟨first, rest, rfl, hchain⟩ := Graph.isCycle_of_cycle? hcycle
    rw [hedges] at hchain
    exact ⟨first, rest, hcycle, hchain, arena.cycleName_called definitions first rest⟩

end Arena

end TokenGrammar
