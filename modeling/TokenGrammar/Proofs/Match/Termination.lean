import TokenGrammar.Proofs.Grammar.Build
import TokenGrammar.Proofs.Match.Bounds

/-!
Matching the rules of a grammar that was built without a defect always ends. A rule is entered again
either with less to come on the token stream or, while nothing has been taken, along an edge of the left
graph, which has no cycles. A repetition goes on only after a pass that lowers the pass rank.
-/

namespace TokenGrammar

def Settles (attempt : Nat → Attempt) : Prop :=
  ∃ depth a, ¬Endless a ∧ ∀ depth', depth ≤ depth' → attempt depth' = a

theorem Settles.const {a : Attempt} (h : ¬Endless a) : Settles fun _ => a := by
  exact ⟨0, a, h, fun _ _ => rfl⟩

theorem Settles.of_succ {attempt : Nat → Attempt} (h : Settles fun depth => attempt (depth + 1)) :
    Settles attempt := by
  obtain ⟨depth, a, ha, hd⟩ := h
  refine ⟨depth + 1, a, ha, ?_⟩
  intro depth' hle
  obtain ⟨n, rfl⟩ : ∃ n, depth' = n + 1 := ⟨depth' - 1, by omega⟩
  exact hd n (by omega)

theorem Settles.bind {first both : Nat → Attempt} (h : Settles first)
    (hfollow : ∀ a, ¬Endless a → (∃ depth, first depth = a) →
      ∃ follow, Settles follow ∧ ∀ depth, first depth = a → both depth = follow depth) :
    Settles both := by
  obtain ⟨depth₁, a, ha, hd₁⟩ := h
  obtain ⟨follow, ⟨depth₂, b, hb, hd₂⟩, hboth⟩ := hfollow a ha ⟨depth₁, hd₁ depth₁ (Nat.le_refl _)⟩
  refine ⟨max depth₁ depth₂, b, hb, ?_⟩
  intro depth' hle
  rw [hboth depth' (hd₁ depth' (by omega))]
  exact hd₂ depth' (by omega)

theorem not_endless_ok (verdict : Bool) (t : Tokenizer) : ¬Endless (.ok verdict, t) := by
  simp [Endless]

namespace Tokenizer

theorem acceptToken_not_endless (t : Tokenizer) (test : Token → Bool) : ¬Endless (t.acceptToken test) := by
  unfold acceptToken
  split
  . simp [Endless]
  . split
    . simp [Endless]
    . split <;> simp [Endless]

theorem acceptWordChar_not_endless (t : Tokenizer) (test : WordRead → Bool) :
    ¬Endless (t.acceptWordChar test) := by
  unfold acceptWordChar
  split
  . simp [Endless]
  . split
    . simp [Endless]
    . split <;> simp [Endless]

end Tokenizer

namespace Arena

variable {arena : Arena} {passes : Nat}

def SettlesBelow (arena : Arena) (passes n : Nat) : Prop :=
  ∀ (id : RuleId) (t : Tokenizer), t.Fits passes → t.left < n →
    Settles fun depth => arena.matchWithin passes depth id t

def SettlesAt (arena : Arena) (passes n : Nat) (id : RuleId) : Prop :=
  ∀ t : Tokenizer, t.Fits passes → t.left = n → Settles fun depth => arena.matchWithin passes depth id t

theorem SettlesBelow.at {n m : Nat} (h : arena.SettlesBelow passes n) (hm : m < n) (id : RuleId) :
    arena.SettlesAt passes m id := by
  intro t ht hn
  exact h id t ht (by omega)

theorem SettlesBelow.mono {n m : Nat} (h : arena.SettlesBelow passes n) (hm : m ≤ n) :
    arena.SettlesBelow passes m := by
  intro id t ht hlt
  exact h id t ht (by omega)

theorem fits_of_matchWithin {depth : Nat} {id : RuleId} {t t' : Tokenizer} {verdict : Bool}
    (ht : t.Fits passes) (h : arena.matchWithin passes depth id t = (.ok verdict, t')) :
    t'.Fits passes ∧ t'.left ≤ t.left := by
  have hleads := arena.matchWithin_leads passes depth id t ht.consistent
  rw [h] at hleads
  exact ⟨ht.of_leads hleads rfl, (hleads.forward verdict rfl).left_le⟩

theorem matchAll_cons_of_ne {enter : RuleId → Tokenizer → Attempt} {rule : RuleId} {rules : List RuleId}
    {t u : Tokenizer} {result : Except MatchError Bool} (h : enter rule t = (result, u))
    (hne : result ≠ .ok true) : matchAll enter (rule :: rules) t = (result, u) := by
  unfold matchAll
  rw [h]
  split
  . next heq =>
    cases heq
    contradiction
  . rfl

theorem matchAny_cons_of_ne {enter : RuleId → Tokenizer → Attempt} {rule : RuleId} {rules : List RuleId}
    {t u : Tokenizer} {result : Except MatchError Bool} (h : enter rule t = (result, u))
    (hne : result ≠ .ok false) : matchAny enter (rule :: rules) t = (result, u) := by
  unfold matchAny
  rw [h]
  split
  . next heq =>
    cases heq
    contradiction
  . rfl

-- A child is entered with as much to come as at the start only if all children before it are nullable.
theorem matchAll_settles {n : Nat} (hbelow : arena.SettlesBelow passes n) {children : List RuleId}
    (hlead : ∀ child ∈ Rule.leading (fun id => arena.nullable.getD id false) children,
      arena.SettlesAt passes n child)
    {t : Tokenizer} (ht : t.Fits passes) (hn : t.left = n) :
    Settles fun depth => matchAll (arena.matchWithin passes depth) children t := by
  induction children generalizing n t with
  | nil => exact Settles.const (not_endless_ok true t)
  | cons child children ih =>
    unfold Rule.leading at hlead
    rw [List.forall_mem_cons] at hlead
    apply (hlead.1 t ht hn).bind
    rintro ⟨result, u⟩ ha ⟨depth, heq⟩
    by_cases htrue : result = .ok true
    . subst htrue
      refine ⟨fun depth => matchAll (arena.matchWithin passes depth) children u, ?_, ?_⟩
      . obtain ⟨hu, hle⟩ := fits_of_matchWithin ht heq
        by_cases hlt : u.left < n
        . apply ih (hbelow.mono (Nat.le_of_lt hlt)) _ hu rfl
          intro child _
          exact hbelow.at hlt child
        . apply ih hbelow _ hu (by omega)
          have hnull : arena.nullable.getD child false = true := by
            cases hc : arena.nullable.getD child false with
            | true => rfl
            | false =>
              have := (arena.matchWithin_gained passes depth child t u hc ht.consistent heq).left
              omega
          rw [if_pos hnull] at hlead
          exact hlead.2
      . intro depth heq
        simp only [matchAll, heq]
    . refine ⟨_, Settles.const ha, ?_⟩
      intro depth heq
      rw [matchAll_cons_of_ne heq htrue]

theorem matchAny_settles {n : Nat} (hbelow : arena.SettlesBelow passes n) {children : List RuleId}
    (hchildren : ∀ child ∈ children, arena.SettlesAt passes n child)
    {t : Tokenizer} (ht : t.Fits passes) (hn : t.left = n) :
    Settles fun depth => matchAny (arena.matchWithin passes depth) children t := by
  induction children generalizing n t with
  | nil => exact Settles.const (not_endless_ok false t)
  | cons child children ih =>
    rw [List.forall_mem_cons] at hchildren
    apply (hchildren.1 t ht hn).bind
    rintro ⟨result, u⟩ ha ⟨depth, heq⟩
    by_cases hfalse : result = .ok false
    . subst hfalse
      refine ⟨fun depth => matchAny (arena.matchWithin passes depth) children u, ?_, ?_⟩
      . obtain ⟨hu, hle⟩ := fits_of_matchWithin ht heq
        by_cases hlt : u.left < n
        . apply ih (hbelow.mono (Nat.le_of_lt hlt)) _ hu rfl
          intro child _
          exact hbelow.at hlt child
        . exact ih hbelow hchildren.2 hu (by omega)
      . intro depth heq
        simp only [matchAny, heq]
    . refine ⟨_, Settles.const ha, ?_⟩
      intro depth heq
      rw [matchAny_cons_of_ne heq hfalse]

theorem matchRepetition_settles {n : Nat} {body : List RuleId}
    (hbody : ∀ t : Tokenizer, t.Fits passes → t.left ≤ n →
      Settles fun depth => matchAll (arena.matchWithin passes depth) body t)
    (rule : RuleId) (min : Nat) (max : Option Nat) {left : Nat} (count : Nat) {t : Tokenizer}
    (ht : t.Fits passes) (hn : t.left ≤ n) (hleft : t.passRank < left) :
    Settles fun depth =>
      matchRepetition rule min max (matchAll (arena.matchWithin passes depth) body) left count t := by
  induction left generalizing count t with
  | zero => omega
  | succ left ih =>
    unfold matchRepetition
    split
    . exact Settles.const (not_endless_ok _ t)
    . next hmax =>
      apply (hbody t ht hn).bind
      rintro ⟨result, u⟩ ha ⟨depth, heq⟩
      have hleads := matchAll_leads (arena.matchWithin_leads passes depth) body ht.consistent
      rw [heq] at hleads
      cases result with
      | error error =>
        refine ⟨_, Settles.const ha, ?_⟩
        intro depth heq
        simp only [heq]
      | ok verdict =>
        cases verdict with
        | false =>
          refine ⟨_, Settles.const (not_endless_ok (min ≤ count) u), ?_⟩
          intro depth heq
          simp only [heq]
        | true =>
          have hf : t.Forward u := hleads.forward true rfl
          by_cases hm : u.mark = t.mark
          . refine ⟨_, Settles.const (not_endless_ok true u), ?_⟩
            intro depth heq
            simp only [heq, if_pos hm]
          . have hlt := hf.passRank_lt ht.consistent hm
            have hle := hf.left_le
            have hu : u.Fits passes := ht.of_leads hleads rfl
            refine ⟨_, ih (count + 1) hu (by omega) (by omega), ?_⟩
            intro depth heq
            simp only [heq, if_neg hm]

theorem below_leftGraph {id child : RuleId} {rule : Rule} (h : arena.get? id = some rule)
    (hc : child ∈ rule.leftEdges fun id => arena.nullable.getD id false) :
    arena.leftGraph.Below child id := by
  unfold Graph.Below
  rw [leftGraph_next, h]
  exact hc

-- The outer induction is on what is to come, the inner one along the left graph.
theorem matchWithin_settles (hg : ∀ id, arena.leftGraph.Ends id) (id : RuleId) {t : Tokenizer}
    (ht : t.Fits passes) : Settles fun depth => arena.matchWithin passes depth id t := by
  suffices hat : ∀ n id, arena.SettlesAt passes n id from hat t.left id t ht rfl
  intro n
  induction n using Nat.strongRecOn with
  | ind n ihn =>
    have hbelow : arena.SettlesBelow passes n := fun id t ht hlt => ihn t.left hlt id t ht rfl
    intro id
    induction hg id with
    | intro id _ ihid =>
      intro t ht hn
      apply Settles.of_succ
      cases hrule : arena.get? id with
      | none =>
        simp only [matchWithin, hrule]
        exact Settles.const (by simp [Endless])
      | some rule =>
        have hedge : ∀ child ∈ rule.leftEdges fun id => arena.nullable.getD id false,
            arena.SettlesAt passes n child := fun child hc => ihid child (below_leftGraph hrule hc)
        cases rule with
        | sequence children =>
          simp only [matchWithin, hrule]
          exact matchAll_settles hbelow hedge ht hn
        | choice children =>
          simp only [matchWithin, hrule]
          exact matchAny_settles hbelow hedge ht hn
        | repetition min max body =>
          simp only [matchWithin, hrule]
          apply matchRepetition_settles _ id min max 0 ht (Nat.le_of_eq hn) ht.rank
          intro u hu hle
          by_cases hlt : u.left < n
          . apply matchAll_settles (hbelow.mono (Nat.le_of_lt hlt)) _ hu rfl
            intro child _
            exact hbelow.at hlt child
          . exact matchAll_settles hbelow hedge hu (by omega)
        | literal word =>
          simp only [matchWithin, hrule]
          exact Settles.const (t.acceptToken_not_endless _)
        | charClass test =>
          simp only [matchWithin, hrule]
          exact Settles.const (t.acceptWordChar_not_endless _)
        | token kind =>
          simp only [matchWithin, hrule]
          exact Settles.const (t.acceptToken_not_endless _)
        | reference name target =>
          cases target with
          | none =>
            simp only [matchWithin, hrule]
            exact Settles.const (by simp [Endless])
          | some target =>
            simp only [matchWithin, hrule]
            exact hedge target (by simp [Rule.leftEdges]) t ht hn

end Arena

namespace Builder

theorem leftGraph_ends {b : Builder} {grammar : Grammar} (h : b.build = .ok grammar) (id : RuleId) :
    grammar.arena.leftGraph.Ends id := by
  obtain ⟨hsound, _, heq⟩ := sound_of_build h
  rw [heq]
  exact Graph.ends_of_cycle?_eq_none (Graph.cycle?_eq_none_iff.2 hsound.leftRecursion) id

theorem matchRule_ends {b : Builder} {grammar : Grammar} (hb : b.build = .ok grammar)
    {t : Tokenizer} (ht : t.Reachable) (id : RuleId) :
    (∀ rule, (grammar.arena.matchRule id t).1 ≠ .error (.endless rule)) ∧
      ∀ passes depth, Arena.passBound t ≤ passes → grammar.arena.depthBound t ≤ depth →
        grammar.arena.matchWithin passes depth id t = grammar.arena.matchRule id t := by
  have hc := ht.consistent
  have hfits : t.Fits (Arena.passBound t) := ⟨hc, Arena.passRank_lt_passBound hc⟩
  obtain ⟨depth, a, ha, hd⟩ := Arena.matchWithin_settles (leftGraph_ends hb) id hfits
  have heq := hd depth (Nat.le_refl _)
  dsimp only at heq
  rw [← heq] at ha
  have hmatch := Arena.matchRule_eq_of_not_endless hc (Nat.le_refl _) ha
  rw [← hmatch] at ha
  constructor
  . intro rule hrule
    exact ha ⟨rule, hrule⟩
  . intro passes depth hp hd
    rcases Arena.matchWithin_agrees id hc hp hd with hsame | ⟨hend, _⟩
    . exact hsame.symm
    . exact absurd hend ha

-- A rule that leads back to itself, next to a repetition of a repetition of the end of the stream.
def nestedRepetitions : Builder :=
  { name := "nested"
    arena := ⟨#[.token .endOfStream, .repetition 0 none [0], .repetition 0 none [1], .literal "x",
      .reference "rest" none, .sequence [3, 4], .choice [5, 2]]⟩
    definitions := [("rest", 6)]
    root := some (.named "rest") }

theorem matchRule_ends_nestedRepetitions :
    ∃ grammar, nestedRepetitions.build = .ok grammar ∧
      (Tokenizer.ofSource {} (.ofText "x x y")).Reachable ∧
      let t := Tokenizer.ofSource {} (.ofText "x x y")
      (∀ rule, (grammar.arena.matchRule 6 t).1 ≠ .error (.endless rule)) ∧
        ∀ passes depth, Arena.passBound t ≤ passes → grammar.arena.depthBound t ≤ depth →
          grammar.arena.matchWithin passes depth 6 t = grammar.arena.matchRule 6 t := by
  have hsome : nestedRepetitions.build.toOption.isSome = true := by decide +kernel
  have ht := Tokenizer.Reachable.start {} (.ofText "x x y")
  cases hb : nestedRepetitions.build with
  | error error => simp [hb, Except.toOption] at hsome
  | ok grammar => exact ⟨grammar, rfl, ht, matchRule_ends hb ht 6⟩

end Builder

end TokenGrammar
