import TokenGrammar.Grammar.Builder
import TokenGrammar.Proofs.Graph.Cycle
import TokenGrammar.Proofs.Text.Sorted

/-!
When the rules that have been put together make up a grammar (`Builder.Sound`), and which defect is the
first one if they do not (`Builder.FirstDefect`). Both are said without the checks that look for defects;
what each of the checks finds is proved here.
-/

namespace TokenGrammar

/-! What it takes to be a grammar. -/

namespace Arena

structure RuleSound (arena : Arena) (rule : Rule) : Prop where
  children : ∀ child ∈ rule.children, child < arena.size
  bounds : ∀ min max body, rule = .repetition min (some max) body → min ≤ max
  literal : rule ≠ .literal ""
  token : rule ≠ .token .word

inductive RuleDefect (arena : Arena) (id : RuleId) : Rule → GrammarError → Prop where
  | child {rule : Rule} {before after : List RuleId} {child : RuleId} :
    rule.children = before ++ child :: after → (∀ child ∈ before, child < arena.size) →
      arena.size ≤ child → RuleDefect arena id rule (.danglingRule id child)
  | bounds {min max : Nat} {body : List RuleId} :
    (∀ child ∈ body, child < arena.size) → max < min →
      RuleDefect arena id (.repetition min (some max) body) (.invalidRepeatBounds id min max)
  | literal : RuleDefect arena id (.literal "") (.emptyLiteral id)
  | token : RuleDefect arena id (.token .word) (.wordTokenLeaf id)

def Refers (arena : Arena) (name : String) : Prop :=
  ∃ target, Rule.reference name target ∈ arena.rules

end Arena

namespace Builder

def RootIs (b : Builder) (id : RuleId) : Prop :=
  b.root = some (.id id) ∨ ∃ name, b.root = some (.named name) ∧ b.definitions.lookup name = some id

def RootSound (b : Builder) : Prop :=
  ∃ id, b.RootIs id ∧ id < b.arena.size

def DefinitionsSound (b : Builder) : Prop :=
  ∀ name id, b.definitions.lookup name = some id → id < b.arena.size

def RulesSound (b : Builder) : Prop :=
  ∀ rule ∈ b.arena.rules, b.arena.RuleSound rule

def ReferencesSound (b : Builder) : Prop :=
  ∀ name, b.arena.Refers name → ∃ id, b.definitions.lookup name = some id

def bound (b : Builder) : Arena :=
  b.arena.bind b.definitions

structure Sound (b : Builder) : Prop where
  root : b.RootSound
  definitions : b.DefinitionsSound
  rules : b.RulesSound
  references : b.ReferencesSound
  leftRecursion : ¬b.bound.leftGraph.Cyclic

/--
The first defect, where the root comes before the definitions, these before the rules, these before the
references and these before left recursion. Of several definitions the one with the smallest name counts,
and of several rules the one at the first place.
-/
inductive FirstDefect (b : Builder) : GrammarError → Prop where
  | missingRoot : b.root = none → FirstDefect b (.missingRoot b.name)
  | unknownRoot {name : String} :
    b.root = some (.named name) → b.definitions.lookup name = none → FirstDefect b (.unknownRoot name)
  | danglingRoot {id : RuleId} : b.RootIs id → b.arena.size ≤ id → FirstDefect b (.danglingRoot id)
  | definition {name : String} {id : RuleId} :
    b.RootSound → b.definitions.lookup name = some id → b.arena.size ≤ id →
      (∀ name' id', b.definitions.lookup name' = some id' → b.arena.size ≤ id' → name ≤ name') →
      FirstDefect b (.danglingDefinition name id)
  | rule {id : RuleId} {rule : Rule} {error : GrammarError} :
    b.RootSound → b.DefinitionsSound → b.arena.get? id = some rule →
      (∀ id' < id, ∀ rule', b.arena.get? id' = some rule' → b.arena.RuleSound rule') →
      b.arena.RuleDefect id rule error → FirstDefect b error
  | references {names : List String} :
    b.RootSound → b.DefinitionsSound → b.RulesSound → names ≠ [] → names.Pairwise (· < ·) →
      (∀ name, name ∈ names ↔ b.arena.Refers name ∧ b.definitions.lookup name = none) →
      FirstDefect b (.unresolvedReferences names)
  | leftRecursion {cycle : List RuleId} :
    b.RootSound → b.DefinitionsSound → b.RulesSound → b.ReferencesSound →
      b.bound.leftGraph.IsCycle cycle →
      FirstDefect b (.leftRecursion (b.bound.cycleName b.definitions cycle))

end Builder

/-! What the checks find. -/

namespace Definitions

def Distinct (definitions : Definitions) : Prop :=
  (definitions.map Prod.fst).Nodup

theorem mem_of_lookup {definitions : Definitions} {name : String} {id : RuleId}
    (h : definitions.lookup name = some id) : (name, id) ∈ definitions := by
  obtain ⟨before, after, rfl, _⟩ := List.lookup_eq_some_iff.1 h
  simp

theorem Distinct.lookup_of_mem {definitions : Definitions} (h : definitions.Distinct) {name : String}
    {id : RuleId} (hmem : (name, id) ∈ definitions) : definitions.lookup name = some id := by
  obtain ⟨before, after, rfl⟩ := List.append_of_mem hmem
  rw [List.lookup_eq_some_iff]
  refine ⟨before, after, rfl, ?_⟩
  intro p hp
  unfold Distinct at h
  rw [List.map_append, List.map_cons, List.nodup_append] at h
  have := h.2.2 p.1 (List.mem_map_of_mem hp) name (by simp)
  simpa using this.symm

theorem Distinct.eq_of_mem {definitions : Definitions} (h : definitions.Distinct)
    {a b : String × RuleId} (ha : a ∈ definitions) (hb : b ∈ definitions) (hname : a.1 = b.1) : a = b := by
  have hla := h.lookup_of_mem ha
  have hlb := h.lookup_of_mem hb
  rw [hname, hlb, Option.some.injEq] at hla
  exact Prod.ext hname hla.symm

theorem sorted_eq {definitions definitions' : Definitions} (h : definitions.Distinct)
    (h' : definitions'.Distinct)
    (hlookup : ∀ name, definitions'.lookup name = definitions.lookup name) :
    definitions'.sorted = definitions.sorted := by
  apply Text.sortByName_eq_of_perm
  . rw [List.perm_ext_iff_of_nodup (List.Nodup.of_map _ h') (List.Nodup.of_map _ h)]
    rintro ⟨name, id⟩
    constructor
    . intro hmem
      apply mem_of_lookup
      rw [← hlookup]
      exact h'.lookup_of_mem hmem
    . intro hmem
      apply mem_of_lookup
      rw [hlookup]
      exact h.lookup_of_mem hmem
  . intro a ha b hb hname
    exact h'.eq_of_mem ha hb hname

end Definitions

namespace Arena

variable {arena : Arena} {definitions : Definitions}

theorem mem_rules_iff {rule : Rule} : rule ∈ arena.rules ↔ ∃ id, arena.get? id = some rule := by
  unfold get?
  exact Array.mem_iff_getElem?

theorem lt_size_of_danglingDefinition? (h : arena.danglingDefinition? definitions = none) {name : String}
    {id : RuleId} (hlookup : definitions.lookup name = some id) : id < arena.size := by
  unfold danglingDefinition? at h
  rw [Option.map_eq_none_iff, List.find?_eq_none] at h
  have hmem : (name, id) ∈ definitions.sorted := by
    rw [Definitions.sorted, Text.mem_sortByName]
    exact Definitions.mem_of_lookup hlookup
  simpa [contains] using h _ hmem

theorem danglingDefinition?_eq_some (hd : definitions.Distinct) {error : GrammarError}
    (h : arena.danglingDefinition? definitions = some error) :
    ∃ name id, error = .danglingDefinition name id ∧ definitions.lookup name = some id ∧
      arena.size ≤ id ∧
      ∀ name' id', definitions.lookup name' = some id' → arena.size ≤ id' → name ≤ name' := by
  unfold danglingDefinition? at h
  rw [Option.map_eq_some_iff] at h
  obtain ⟨⟨name, id⟩, hfind, rfl⟩ := h
  obtain ⟨hmem, hout, hleast⟩ := Text.find?_sortByName hfind
  refine ⟨name, id, rfl, hd.lookup_of_mem hmem, by simpa [contains] using hout, ?_⟩
  intro name' id' hlookup hout'
  exact hleast (name', id') (Definitions.mem_of_lookup hlookup) (by simpa [contains] using hout')

theorem find?_children_eq_none {rule : Rule} :
    (rule.children.find? fun child => !arena.contains child) = none ↔
      ∀ child ∈ rule.children, child < arena.size := by
  simp [List.find?_eq_none, contains]

theorem defect?_eq_none {id : RuleId} {rule : Rule} :
    arena.defect? id rule = none ↔ arena.RuleSound rule := by
  constructor
  . intro h
    unfold defect? at h
    split at h
    . contradiction
    . next hchildren =>
      refine ⟨find?_children_eq_none.1 hchildren, ?_, ?_, ?_⟩
      . rintro min max body rfl
        simpa using h
      . rintro rfl
        simp at h
      . rintro rfl
        simp at h
  . intro h
    unfold defect?
    rw [find?_children_eq_none.2 h.children]
    dsimp only
    split
    . next min max body =>
      simpa using h.bounds min max body rfl
    . next word =>
      simpa using h.literal
    . exact absurd rfl h.token
    . rfl

theorem defect?_eq_some {id : RuleId} {rule : Rule} {error : GrammarError}
    (h : arena.defect? id rule = some error) : arena.RuleDefect id rule error := by
  unfold defect? at h
  split at h
  . next child hchild =>
    obtain ⟨hout, before, after, hsplit, hbefore⟩ := List.find?_eq_some_iff_append.1 hchild
    cases h
    apply RuleDefect.child hsplit
    . simpa [contains] using hbefore
    . simpa [contains] using hout
  . next hchildren =>
    have hinside := find?_children_eq_none.1 hchildren
    split at h
    . split at h
      . next hlt =>
        cases h
        exact .bounds hinside hlt
      . contradiction
    . split at h
      . next hempty =>
        cases h
        rw [hempty]
        exact .literal
      . contradiction
    . cases h
      exact .token
    . contradiction

theorem mem_zipIdx_rules {id : RuleId} {rule : Rule} :
    (rule, id) ∈ arena.rules.toList.zipIdx ↔ arena.get? id = some rule := by
  rw [List.mem_zipIdx_iff_getElem?, Array.getElem?_toList, get?]

theorem firstDefect?_eq_none :
    arena.firstDefect? = none ↔ ∀ rule ∈ arena.rules, arena.RuleSound rule := by
  unfold firstDefect?
  simp only [List.findSome?_eq_none_iff, Prod.forall, mem_zipIdx_rules, defect?_eq_none, mem_rules_iff,
    forall_exists_index]

theorem firstDefect?_eq_some {error : GrammarError} (h : arena.firstDefect? = some error) :
    ∃ id rule, arena.get? id = some rule ∧ arena.RuleDefect id rule error ∧
      ∀ id' < id, ∀ rule', arena.get? id' = some rule' → arena.RuleSound rule' := by
  unfold firstDefect? at h
  obtain ⟨before, ⟨rule, id⟩, after, hsplit, hdefect, hbefore⟩ := List.findSome?_eq_some_iff.1 h
  refine ⟨id, rule, ?_, defect?_eq_some hdefect, ?_⟩
  . rw [← mem_zipIdx_rules, hsplit]
    simp
  . intro id' hlt rule' hrule'
    rw [← mem_zipIdx_rules, hsplit, List.mem_append] at hrule'
    rcases hrule' with hmem | hmem
    . exact defect?_eq_none.1 (hbefore _ hmem)
    -- The places rise along the list, so that none after the defect comes before it.
    . obtain ⟨earlier, _, _, _, hafter⟩ := List.zipIdx_eq_append_iff.1 hsplit
      obtain ⟨_, _, _, heq, _⟩ := List.zipIdx_eq_cons_iff.1 hafter.symm
      cases heq
      rw [hafter] at hmem
      exact absurd (List.le_snd_of_mem_zipIdx hmem) (Nat.not_le.2 hlt)

theorem mem_missingNames {name : String} :
    name ∈ arena.missingNames definitions ↔ arena.Refers name ∧ definitions.lookup name = none := by
  unfold missingNames Refers
  simp only [Text.mem_sortByName, List.mem_eraseDups, List.mem_filter, List.mem_filterMap,
    Option.isNone_iff_eq_none, Array.mem_toList_iff]
  apply and_congr_left'
  constructor
  . rintro ⟨rule, hmem, hname⟩
    cases rule with
    | reference name' target =>
      cases hname
      exact ⟨target, hmem⟩
    | _ => contradiction
  . rintro ⟨target, hmem⟩
    exact ⟨_, hmem, rfl⟩

theorem pairwise_missingNames : (arena.missingNames definitions).Pairwise (· < ·) := by
  apply Text.pairwise_sortByName_eraseDups

end Arena

namespace Builder

variable {b : Builder}

inductive RootRead (b : Builder) : Except GrammarError RuleId → Prop where
  | missing : b.root = none → RootRead b (.error (.missingRoot b.name))
  | unknown {name : String} :
    b.root = some (.named name) → b.definitions.lookup name = none →
      RootRead b (.error (.unknownRoot name))
  | dangling {id : RuleId} :
    b.RootIs id → b.arena.size ≤ id → RootRead b (.error (.danglingRoot id))
  | inside {id : RuleId} : b.RootIs id → id < b.arena.size → RootRead b (.ok id)

theorem RootIs.rootRead {id : RuleId} (h : b.RootIs id) :
    b.RootRead (if b.arena.contains id then pure id else throw (.danglingRoot id)) := by
  split
  . next hin =>
    exact .inside h (by simpa [Arena.contains] using hin)
  . next hout =>
    exact .dangling h (by simpa [Arena.contains] using hout)

theorem rootRule_rootRead (b : Builder) : b.RootRead b.rootRule := by
  unfold rootRule
  cases hroot : b.root with
  | none => exact .missing hroot
  | some root =>
    cases root with
    | id id =>
      have h : b.RootIs id := .inl hroot
      exact h.rootRead
    | named name =>
      cases hlookup : b.definitions.lookup name with
      | none =>
        simp only [hlookup]
        exact .unknown hroot hlookup
      | some id =>
        have h : b.RootIs id := .inr ⟨name, hroot, hlookup⟩
        simp only [hlookup]
        exact h.rootRead

theorem RootIs.eq {id id' : RuleId} (h : b.RootIs id) (h' : b.RootIs id') : id = id' := by
  rcases h with h | ⟨name, h, hlookup⟩ <;> rcases h' with h' | ⟨name', h', hlookup'⟩ <;> grind

end Builder

end TokenGrammar
