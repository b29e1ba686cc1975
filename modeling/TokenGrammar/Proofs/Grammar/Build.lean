import TokenGrammar.Proofs.Grammar.Defect
import TokenGrammar.Proofs.Rule.LeftRecursion
import TokenGrammar.Proofs.Rule.Nullable

/-!
Which rules become a grammar. Whatever calls have put them together, `Builder.build_run` says that they
do so if and only if nothing is wrong with them, that the grammar has no loose ends, and that otherwise
the first defect is reported.
-/

namespace TokenGrammar

/-! The checks, one after the other. -/

namespace Arena

variable {arena : Arena}

theorem RuleDefect.not_ruleSound {id : RuleId} {rule : Rule} {error : GrammarError}
    (h : arena.RuleDefect id rule error) : ¬arena.RuleSound rule := by
  intro hsound
  cases h with
  | child hsplit _ hout =>
    apply Nat.not_le.2 (hsound.children _ _) hout
    simp [hsplit]
  | bounds _ hlt =>
    have := hsound.bounds _ _ _ rfl
    omega
  | literal => exact hsound.literal rfl
  | token => exact hsound.token rfl

end Arena

namespace Builder

variable {b : Builder}

theorem FirstDefect.not_sound {error : GrammarError} (h : b.FirstDefect error) : ¬b.Sound := by
  intro hsound
  obtain ⟨root, hroot, hin⟩ := hsound.root
  cases h with
  | missingRoot hnone =>
    rcases hroot with hroot | ⟨_, hroot, _⟩ <;> simp [hnone] at hroot
  | unknownRoot hnamed hnone =>
    rcases hroot with hroot | ⟨name, hroot, hlookup⟩
    . simp [hnamed] at hroot
    . rw [hnamed] at hroot
      cases hroot
      simp [hnone] at hlookup
  | danglingRoot hroot' hout =>
    rw [hroot'.eq hroot] at hout
    exact absurd hout (Nat.not_le.2 hin)
  | definition _ hlookup hout _ =>
    exact absurd hout (Nat.not_le.2 (hsound.definitions _ _ hlookup))
  | rule _ _ hrule _ hdefect =>
    exact hdefect.not_ruleSound (hsound.rules _ (Arena.mem_rules_iff.2 ⟨_, hrule⟩))
  | references _ _ _ hne _ hmem =>
    obtain ⟨name, hname⟩ := List.exists_mem_of_ne_nil _ hne
    obtain ⟨hrefers, hnone⟩ := (hmem name).1 hname
    obtain ⟨id, hid⟩ := hsound.references name hrefers
    simp [hnone] at hid
  | leftRecursion _ _ _ _ hcycle => exact hsound.leftRecursion hcycle.cyclic

def assembled (b : Builder) (root : RuleId) : Grammar :=
  { name := b.name
    extensions := b.extensions
    config := b.config
    arena := b.bound
    definitions := b.definitions
    root }

inductive Judged (b : Builder) : Except GrammarError Grammar → Prop where
  | root {error : GrammarError} : b.rootRule = .error error → Judged b (.error error)
  | definition {error : GrammarError} :
    b.RootSound → b.arena.danglingDefinition? b.definitions = some error → Judged b (.error error)
  | rule {error : GrammarError} :
    b.RootSound → b.DefinitionsSound → b.arena.firstDefect? = some error → Judged b (.error error)
  | references :
    b.RootSound → b.DefinitionsSound → b.RulesSound → b.arena.missingNames b.definitions ≠ [] →
      Judged b (.error (.unresolvedReferences (b.arena.missingNames b.definitions)))
  | leftRecursion {cycle : List RuleId} :
    b.RootSound → b.DefinitionsSound → b.RulesSound → b.ReferencesSound →
      b.bound.leftGraph.cycle? = some cycle →
      Judged b (.error (.leftRecursion (b.bound.cycleName b.definitions cycle)))
  | grammar {root : RuleId} : b.Sound → b.RootIs root → Judged b (.ok (b.assembled root))

theorem referencesSound_of_missingNames (h : b.arena.missingNames b.definitions = []) :
    b.ReferencesSound := by
  intro name hrefers
  cases hlookup : b.definitions.lookup name with
  | none =>
    have := Arena.mem_missingNames.2 ⟨hrefers, hlookup⟩
    simp [h] at this
  | some id => exact ⟨id, rfl⟩

theorem build_judged (b : Builder) : b.Judged b.build := by
  unfold build
  -- A check that is passed becomes a premise of whatever the checks after it come to.
  have hread := b.rootRule_rootRead
  cases hroot : b.rootRule with
  | error error => exact .root hroot
  | ok root =>
    rw [hroot] at hread
    cases hread with
    | inside his hin =>
      have hroot : b.RootSound := ⟨root, his, hin⟩
      cases hdefinitions : b.arena.danglingDefinition? b.definitions with
      | some error => exact .definition hroot hdefinitions
      | none =>
        have hdefinitions : b.DefinitionsSound := fun _ _ => Arena.lt_size_of_danglingDefinition? hdefinitions
        cases hrules : b.arena.firstDefect? with
        | some error => exact .rule hroot hdefinitions hrules
        | none =>
          rw [Arena.firstDefect?_eq_none] at hrules
          unfold Arena.resolve
          cases hmissing : (b.arena.missingNames b.definitions).isEmpty with
          | false =>
            simp only [hmissing]
            exact .references hroot hdefinitions hrules (by simpa using hmissing)
          | true =>
            have hreferences := referencesSound_of_missingNames (List.isEmpty_iff.1 hmissing)
            simp only [hmissing]
            unfold Arena.leftRecursion?
            cases hcycle : (b.arena.bind b.definitions).leftGraph.cycle? with
            | some cycle => exact .leftRecursion hroot hdefinitions hrules hreferences hcycle
            | none =>
              have hends := Graph.cycle?_eq_none_iff.1 hcycle
              exact .grammar ⟨hroot, hdefinitions, hrules, hreferences, hends⟩ his

theorem firstDefect_of_build (hd : b.definitions.Distinct) {error : GrammarError}
    (h : b.build = .error error) : b.FirstDefect error := by
  have hjudged := b.build_judged
  rw [h] at hjudged
  cases hjudged with
  | root hroot =>
    have hread := b.rootRule_rootRead
    rw [hroot] at hread
    cases hread with
    | missing hnone => exact .missingRoot hnone
    | unknown hnamed hnone => exact .unknownRoot hnamed hnone
    | dangling his hout => exact .danglingRoot his hout
  | definition hroot hdefinition =>
    obtain ⟨name, id, rfl, hlookup, hout, hleast⟩ := Arena.danglingDefinition?_eq_some hd hdefinition
    exact .definition hroot hlookup hout hleast
  | rule hroot hdefinitions hdefect =>
    obtain ⟨id, rule, hrule, hdefect, hbefore⟩ := Arena.firstDefect?_eq_some hdefect
    exact .rule hroot hdefinitions hrule hbefore hdefect
  | references hroot hdefinitions hrules hne =>
    apply FirstDefect.references hroot hdefinitions hrules hne Arena.pairwise_missingNames
    intro name
    exact Arena.mem_missingNames
  | leftRecursion hroot hdefinitions hrules hreferences hcycle =>
    exact .leftRecursion hroot hdefinitions hrules hreferences (Graph.isCycle_of_cycle? hcycle)

theorem sound_of_build {grammar : Grammar} (h : b.build = .ok grammar) :
    b.Sound ∧ b.RootIs grammar.root ∧ grammar = b.assembled grammar.root := by
  have hjudged := b.build_judged
  rw [h] at hjudged
  cases hjudged with
  | grammar hsound hroot => exact ⟨hsound, hroot, rfl⟩

end Builder

theorem Grammar.exists_build_of_ofSteps {name : String} {steps : Build Unit} {grammar : Grammar}
    (h : Grammar.ofSteps name steps = .ok grammar) : ∃ b : Builder, b.build = .ok grammar := by
  unfold ofSteps at h
  cases hsteps : steps.run { name } with
  | error error =>
    rw [hsteps] at h
    contradiction
  | ok result =>
    rw [hsteps] at h
    exact ⟨result.2, h⟩

/-! No loose ends. -/

namespace Arena

def Inside (arena : Arena) : Prop :=
  ∀ rule ∈ arena.rules, ∀ id ∈ rule.successors, id < arena.size

structure LeftInside (arena : Arena) : Prop where
  successors : arena.Inside
  marks : ∀ marks, (arena.nullableRound marks).size = arena.size
  nullable : arena.nullable.size = arena.size
  edges : ∀ id, ∀ next ∈ arena.leftGraph.next id, next < arena.leftGraph.size

end Arena

namespace Rule

theorem successors_eq_children {rule : Rule} (h : rule.referenceName? = none) :
    rule.successors = rule.children := by
  cases rule with
  | reference name target => contradiction
  | _ => rfl

theorem mem_of_mem_leading {nullable : RuleId → Bool} {children : List RuleId} {id : RuleId}
    (h : id ∈ leading nullable children) : id ∈ children := by
  obtain ⟨before, after, rfl, _⟩ := mem_leading_iff.1 h
  simp

theorem mem_successors_of_mem_leftEdges {nullable : RuleId → Bool} {rule : Rule} {id : RuleId}
    (h : id ∈ rule.leftEdges nullable) : id ∈ rule.successors := by
  cases rule with
  | sequence children => exact mem_of_mem_leading h
  | choice children => exact h
  | repetition min max body => exact mem_of_mem_leading h
  | reference name target =>
    cases target with
    | none => contradiction
    | some target => exact h
  | _ => contradiction

end Rule

namespace Arena

variable {arena : Arena}

theorem size_nullable (arena : Arena) : arena.nullable.size = arena.size := by
  rw [← nullableRound_nullable, size_nullableRound]

theorem size_leftGraph (arena : Arena) : arena.leftGraph.size = arena.size := by
  simp [leftGraph, Graph.size, size]

theorem mem_leftGraph_next {id next : RuleId} (h : next ∈ arena.leftGraph.next id) :
    ∃ rule ∈ arena.rules, next ∈ rule.leftEdges fun id => arena.nullable.getD id false := by
  rw [leftGraph_next] at h
  cases hrule : arena.get? id with
  | none => simp [hrule] at h
  | some rule =>
    rw [hrule] at h
    exact ⟨rule, Array.mem_of_getElem? hrule, h⟩

theorem Inside.leftInside (h : arena.Inside) : arena.LeftInside where
  successors := h
  marks := arena.size_nullableRound
  nullable := arena.size_nullable
  edges := by
    intro id next hnext
    obtain ⟨rule, hrule, hedge⟩ := mem_leftGraph_next hnext
    rw [size_leftGraph]
    exact h rule hrule next (Rule.mem_successors_of_mem_leftEdges hedge)

theorem lt_size_of_get? {id : RuleId} {rule : Rule} (h : arena.get? id = some rule) : id < arena.size := by
  exact (Array.getElem?_eq_some_iff.1 h).1

theorem size_bind (arena : Arena) (definitions : Definitions) :
    (arena.bind definitions).size = arena.size := by
  simp [bind, size]

theorem mem_bind {definitions : Definitions} {rule : Rule}
    (h : rule ∈ (arena.bind definitions).rules) :
    (∃ name target, Rule.reference name target ∈ arena.rules ∧
      rule = .reference name ((definitions.lookup name).or target)) ∨
    rule ∈ arena.rules ∧ rule.referenceName? = none := by
  obtain ⟨rule, hmem, rfl⟩ := Array.mem_map.1 h
  cases rule with
  | reference name target => exact .inl ⟨name, target, hmem, rfl⟩
  | _ => exact .inr ⟨hmem, rfl⟩

theorem get?_bind {id : RuleId} {rule : Rule} (h : arena.get? id = some rule)
    (hname : rule.referenceName? = none) (definitions : Definitions) :
    (arena.bind definitions).get? id = some rule := by
  unfold get? at h
  unfold bind get?
  rw [Array.getElem?_map, h]
  cases rule with
  | reference name target => simp [Rule.referenceName?] at hname
  | _ => rfl

end Arena

namespace Grammar

structure Closed (grammar : Grammar) : Prop where
  root : grammar.root < grammar.arena.size
  definitions : ∀ name id, grammar.definitions.lookup name = some id → id < grammar.arena.size
  references : ∀ name target, Rule.reference name target ∈ grammar.arena.rules →
    ∃ id, target = some id ∧ grammar.definitions.lookup name = some id
  rules : grammar.arena.Inside

end Grammar

namespace Builder

variable {b : Builder}

theorem ReferencesSound.bound (h : b.ReferencesSound) {name : String} {target : Option RuleId}
    (hmem : Rule.reference name target ∈ b.bound.rules) :
    ∃ id, target = some id ∧ b.definitions.lookup name = some id := by
  rcases Arena.mem_bind hmem with ⟨name, old, hold, heq⟩ | ⟨_, hnone⟩
  . cases heq
    obtain ⟨id, hid⟩ := h name ⟨old, hold⟩
    exact ⟨id, by simp [hid], hid⟩
  . contradiction

theorem inside_bound (hdefinitions : b.DefinitionsSound) (hrules : b.RulesSound)
    (hreferences : b.ReferencesSound) : b.bound.Inside := by
  intro rule hmem id hid
  rw [bound, Arena.size_bind]
  rcases Arena.mem_bind hmem with ⟨name, target, hold, rfl⟩ | ⟨hold, hnone⟩
  . obtain ⟨target', hlookup⟩ := hreferences name ⟨target, hold⟩
    simp only [hlookup, Option.some_or, Rule.successors, List.mem_singleton] at hid
    rw [hid]
    exact hdefinitions name target' hlookup
  . rw [Rule.successors_eq_children hnone] at hid
    exact (hrules rule hold).children id hid

theorem Sound.closed (h : b.Sound) {root : RuleId} (hroot : b.RootIs root) :
    (b.assembled root).Closed where
  root := by
    obtain ⟨root', hroot', hin⟩ := h.root
    rw [hroot.eq hroot']
    simpa [assembled, bound, Arena.size_bind] using hin
  definitions := by
    intro name id hlookup
    simpa [assembled, bound, Arena.size_bind] using h.definitions name id hlookup
  references := fun _ _ => h.references.bound
  rules := inside_bound h.definitions h.rules h.references

theorem leftInside_of_build (hd : b.definitions.Distinct)
    (h : ∀ error, b.build = .error error → ∃ rule, error = .leftRecursion rule) :
    b.bound.LeftInside := by
  apply Arena.Inside.leftInside
  cases hbuild : b.build with
  | ok grammar =>
    have hsound := (sound_of_build hbuild).1
    exact inside_bound hsound.definitions hsound.rules hsound.references
  | error error =>
    obtain ⟨rule, rfl⟩ := h error hbuild
    cases firstDefect_of_build hd hbuild with
    | rule _ _ _ _ hdefect => cases hdefect
    | leftRecursion _ hdefinitions hrules hreferences _ =>
      exact inside_bound hdefinitions hrules hreferences

/-! The order of the definitions. -/

theorem build_reordered (hd : b.definitions.Distinct) {definitions : Definitions}
    (hd' : definitions.Distinct)
    (hlookup : ∀ name, definitions.lookup name = b.definitions.lookup name) :
    ({ b with definitions } : Builder).build =
      b.build.map fun grammar => { grammar with definitions } := by
  have hsorted := Definitions.sorted_eq hd hd' hlookup
  have hroot : ({ b with definitions } : Builder).rootRule = b.rootRule := by
    simp only [rootRule, hlookup]
  have hresolve : b.arena.resolve definitions = b.arena.resolve b.definitions := by
    simp only [Arena.resolve, Arena.missingNames, Arena.bind, hlookup]
    rfl
  have hname (arena : Arena) : arena.cycleName definitions = arena.cycleName b.definitions := by
    funext cycle
    simp only [Arena.cycleName, hsorted]
  change _ = (fun grammar : Grammar => { grammar with definitions }) <$> b.build
  simp only [build, hroot, Arena.danglingDefinition?, hsorted, hresolve, Arena.leftRecursion?, hname,
    map_bind]
  rfl

/-! All that can be put together. -/

inductive Call where
  | extension (extension : String)
  | config (config : Config)
  | sequence (children : List RuleId)
  | choice (children : List RuleId)
  | repetition (min : Nat) (max : Option Nat) (body : List RuleId)
  | optional (child : RuleId)
  | zeroOrMore (child : RuleId)
  | oneOrMore (child : RuleId)
  | literal (word : String)
  | charClass (test : CharClass)
  | token (kind : TokenKind)
  | reference (name : String)
  | identifier
  | define (name : String) (rule : RuleId)
  | root (rule : RuleId)
  | rootNamed (name : String)
  deriving DecidableEq, Repr

def Call.step : Call → Build Unit
  | .extension name => Build.extension name
  | .config settings => Build.config settings
  | .sequence children => discard (Build.sequence children)
  | .choice children => discard (Build.choice children)
  | .repetition min max body => discard (Build.repetition min max body)
  | .optional child => discard (Build.optional child)
  | .zeroOrMore child => discard (Build.zeroOrMore child)
  | .oneOrMore child => discard (Build.oneOrMore child)
  | .literal word => discard (Build.literal word)
  | .charClass test => discard (Build.charClass test)
  | .token kind => discard (Build.token kind)
  | .reference name => discard (Build.reference name)
  | .identifier => discard Build.identifier
  | .define name rule => Build.define name rule
  | .root rule => Build.root rule
  | .rootNamed name => Build.rootNamed name

/-- What a call makes of what has been put together, where a call that fails changes nothing. -/
def perform (b : Builder) (call : Call) : Builder :=
  match call.step.run b with
  | .ok (_, b) => b
  | .error _ => b

def run (b : Builder) (calls : List Call) : Builder :=
  calls.foldl perform b

theorem run_define (b : Builder) (name : String) (rule : RuleId) :
    (Build.define name rule).run b =
      if (b.definitions.lookup name).isSome then .error (.duplicateRule name)
      else .ok ((), { b with definitions := b.definitions ++ [(name, rule)] }) := by
  cases hlookup : b.definitions.lookup name <;> simp [Build.define, hlookup] <;> rfl

theorem perform_definitions (b : Builder) (call : Call) :
    (b.perform call).definitions = b.definitions ∨
      ∃ name rule, b.definitions.lookup name = none ∧
        (b.perform call).definitions = b.definitions ++ [(name, rule)] := by
  cases call with
  | define name rule =>
    cases hlookup : b.definitions.lookup name with
    | none =>
      refine .inr ⟨name, rule, hlookup, ?_⟩
      simp [perform, Call.step, run_define, hlookup]
    | some id =>
      left
      simp [perform, Call.step, run_define, hlookup]
  | extension name =>
    left
    change (if b.extensions.contains (normalExtension name) then b else _).definitions = _
    split <;> rfl
  | _ => exact .inl rfl

theorem perform_distinct (h : b.definitions.Distinct) (call : Call) :
    (b.perform call).definitions.Distinct := by
  rcases b.perform_definitions call with heq | ⟨name, rule, hnone, heq⟩
  . rwa [heq]
  . rw [heq, Definitions.Distinct, List.map_append, List.nodup_append]
    refine ⟨h, by simp, ?_⟩
    intro name' hmem
    obtain ⟨p, hp, rfl⟩ := List.mem_map.1 hmem
    have hne : name ≠ p.1 := by simpa using List.lookup_eq_none_iff.1 hnone p hp
    simpa using hne.symm

theorem run_distinct (h : b.definitions.Distinct) (calls : List Call) :
    (b.run calls).definitions.Distinct := by
  induction calls generalizing b with
  | nil => exact h
  | cons call calls ih => exact ih (perform_distinct h call)

/--
Whatever has been put together becomes a grammar if and only if it is sound. The grammar then has no
loose ends; otherwise the first defect is reported. The search for left recursion never looks outside of
the arena, and all that matters about the definitions is what each name stands for.
-/
theorem build_run (name : String) (calls : List Call) :
    let b := run { name } calls
    ((∃ grammar, b.build = .ok grammar) ↔ b.Sound) ∧
      (∀ grammar, b.build = .ok grammar →
        b.RootIs grammar.root ∧ grammar = b.assembled grammar.root ∧ grammar.Closed) ∧
      (∀ error, b.build = .error error → b.FirstDefect error) ∧
      ((∀ error, b.build = .error error → ∃ rule, error = .leftRecursion rule) → b.bound.LeftInside) ∧
      ∀ definitions : Definitions, definitions.Distinct →
        (∀ name, definitions.lookup name = b.definitions.lookup name) →
        ({ b with definitions } : Builder).build =
          b.build.map fun grammar => { grammar with definitions } := by
  intro b
  have hd : b.definitions.Distinct := run_distinct (by simp [Definitions.Distinct]) calls
  refine ⟨?_, ?_, fun _ => firstDefect_of_build hd, leftInside_of_build hd,
    fun _ => build_reordered hd⟩
  . constructor
    . rintro ⟨grammar, hbuild⟩
      exact (sound_of_build hbuild).1
    . intro hsound
      cases hbuild : b.build with
      | ok grammar => exact ⟨grammar, rfl⟩
      | error error => exact absurd hsound (firstDefect_of_build hd hbuild).not_sound
  . intro grammar hbuild
    obtain ⟨hsound, hroot, heq⟩ := sound_of_build hbuild
    refine ⟨hroot, heq, ?_⟩
    rw [heq]
    exact hsound.closed hroot

end Builder

end TokenGrammar
