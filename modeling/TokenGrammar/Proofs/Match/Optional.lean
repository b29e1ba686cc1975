import TokenGrammar.Proofs.Match.Fault

/-!
An optional rule is a choice of its body and of nothing. `Arena.spelledOut` writes every optional rule of
an arena in this way, and `Grammar.matchRule_spelledOut` says that no match can tell the difference,
wherever the optional rules stand.
-/

namespace TokenGrammar

def Rule.optionalBody? : Rule → Option (List RuleId)
  | .repetition 0 (some 1) body => some body
  | _ => none

theorem Rule.eq_of_optionalBody? {rule : Rule} {body : List RuleId}
    (h : rule.optionalBody? = some body) : rule = .repetition 0 (some 1) body := by
  unfold optionalBody? at h
  split at h
  . cases h
    rfl
  . contradiction

namespace Arena

def spellOutAt (arena : Arena) (id : RuleId) : Arena :=
  match (arena.get? id).bind Rule.optionalBody? with
  | none => arena
  | some body =>
    let (once, arena) := arena.push (.sequence body)
    let (never, arena) := arena.push (.sequence [])
    { arena with rules := arena.rules.setIfInBounds id (.choice [once, never]) }

def spelledOut (arena : Arena) : Arena :=
  (List.range arena.size).foldl spellOutAt arena

inductive Spells (arena : Arena) (id : RuleId) : Rule → Prop where
  | same {rule : Rule} (hr : arena.get? id = some rule) : Spells arena id rule
  | choice {body : List RuleId} {once never : RuleId}
    (hr : arena.get? id = some (.choice [once, never])) (ho : arena.get? once = some (.sequence body))
    (hn : arena.get? never = some (.sequence [])) : Spells arena id (.repetition 0 (some 1) body)

section

variable {arena : Arena} {id place : RuleId} {rule : Rule} {body : List RuleId}

theorem spellOutAt_of_none (h : (arena.get? place).bind Rule.optionalBody? = none) :
    arena.spellOutAt place = arena := by
  unfold spellOutAt
  rw [h]

theorem get?_spellOutAt (h : arena.get? place = some (.repetition 0 (some 1) body)) (id : RuleId) :
    (arena.spellOutAt place).get? id =
      if id = place then some (.choice [arena.size, arena.size + 1])
      else if id = arena.size then some (.sequence body)
      else if id = arena.size + 1 then some (.sequence [])
      else arena.get? id := by
  have hrules : (arena.spellOutAt place).rules =
      ((arena.rules.push (.sequence body)).push (.sequence [])).setIfInBounds place
        (.choice [arena.size, arena.size + 1]) := by
    unfold spellOutAt
    rw [h]
    simp [Rule.optionalBody?, push, size]
  have hlt := lt_size_of_get? h
  unfold get?
  rw [hrules, Array.getElem?_setIfInBounds, Array.getElem?_push, Array.getElem?_push]
  simp only [Array.size_push, size] at hlt ⊢
  grind

theorem get?_spellOutAt_of_ne (h : arena.get? id = some rule) (hne : id ≠ place) :
    (arena.spellOutAt place).get? id = some rule := by
  cases hplace : (arena.get? place).bind Rule.optionalBody? with
  | none => rwa [spellOutAt_of_none hplace]
  | some body =>
    obtain ⟨optional, hget, hbody⟩ := Option.bind_eq_some_iff.1 hplace
    rw [Rule.eq_of_optionalBody? hbody] at hget
    have hlt := lt_size_of_get? h
    rw [get?_spellOutAt hget, if_neg hne, if_neg (Nat.ne_of_lt hlt),
      if_neg (Nat.ne_of_lt (Nat.lt_succ_of_lt hlt)), h]

theorem get?_spellOutAt_of_none (h : arena.get? id = some rule) (hrule : rule.optionalBody? = none) :
    (arena.spellOutAt place).get? id = some rule := by
  by_cases hid : id = place
  . rwa [spellOutAt_of_none]
    rw [← hid, h]
    exact hrule
  . exact get?_spellOutAt_of_ne h hid

theorem spells_spellOutAt_self (h : arena.get? id = some (.repetition 0 (some 1) body)) :
    (arena.spellOutAt id).Spells id (.repetition 0 (some 1) body) := by
  have hlt := lt_size_of_get? h
  have hchoice : (arena.spellOutAt id).get? id = some (.choice [arena.size, arena.size + 1]) := by
    rw [get?_spellOutAt h, if_pos rfl]
  refine .choice hchoice ?_ ?_
  . rw [get?_spellOutAt h, if_neg (Nat.ne_of_gt hlt), if_pos rfl]
  . rw [get?_spellOutAt h, if_neg (Nat.ne_of_gt (Nat.lt_succ_of_lt hlt)),
      if_neg (Nat.succ_ne_self _), if_pos rfl]

theorem Spells.spellOutAt (h : arena.Spells id rule) (place : RuleId) :
    (arena.spellOutAt place).Spells id rule := by
  cases h with
  | choice hr ho hn =>
    exact .choice (get?_spellOutAt_of_none hr rfl) (get?_spellOutAt_of_none ho rfl)
      (get?_spellOutAt_of_none hn rfl)
  | same hr =>
    by_cases hid : id = place
    . subst hid
      cases hbody : rule.optionalBody? with
      | none => exact .same (get?_spellOutAt_of_none hr hbody)
      | some body =>
        obtain rfl := Rule.eq_of_optionalBody? hbody
        exact spells_spellOutAt_self hr
    . exact .same (get?_spellOutAt_of_ne hr hid)

theorem spells_foldl_spellOutAt (places : List RuleId) (h : arena.Spells id rule) :
    (places.foldl spellOutAt arena).Spells id rule := by
  induction places generalizing arena with
  | nil => exact h
  | cons place places ih => exact ih (h.spellOutAt place)

theorem spells_spelledOut (h : arena.get? id = some rule) : arena.spelledOut.Spells id rule := by
  exact spells_foldl_spellOutAt _ (.same h)

theorem optionalBody?_spellOutAt {places : List RuleId}
    (h : ∀ id rule, arena.get? id = some rule → rule.optionalBody? ≠ none → id ∈ place :: places)
    (hget : (arena.spellOutAt place).get? id = some rule) (hrule : rule.optionalBody? ≠ none) :
    id ∈ places := by
  cases hplace : (arena.get? place).bind Rule.optionalBody? with
  | none =>
    rw [spellOutAt_of_none hplace] at hget
    have hne : id ≠ place := by
      rintro rfl
      rw [hget] at hplace
      exact hrule hplace
    exact List.mem_of_ne_of_mem hne (h id rule hget hrule)
  | some body =>
    obtain ⟨optional, hoptional, hbody⟩ := Option.bind_eq_some_iff.1 hplace
    rw [Rule.eq_of_optionalBody? hbody] at hoptional
    rw [get?_spellOutAt hoptional] at hget
    split at hget
    . cases hget
      contradiction
    . next hne =>
      split at hget
      . cases hget
        contradiction
      . split at hget
        . cases hget
          contradiction
        . exact List.mem_of_ne_of_mem hne (h id rule hget hrule)

theorem optionalBody?_foldl_spellOutAt {places : List RuleId}
    (h : ∀ id rule, arena.get? id = some rule → rule.optionalBody? ≠ none → id ∈ places)
    (hget : (places.foldl spellOutAt arena).get? id = some rule) : rule.optionalBody? = none := by
  induction places generalizing arena with
  | nil =>
    by_contra hrule
    simpa using h id rule hget hrule
  | cons place places ih =>
    apply ih _ hget
    intro id rule hget hrule
    exact optionalBody?_spellOutAt h hget hrule

theorem optionalBody?_spelledOut (h : arena.spelledOut.get? id = some rule) :
    rule.optionalBody? = none := by
  apply optionalBody?_foldl_spellOutAt _ h
  intro id rule hget _
  rw [List.mem_range]
  exact lt_size_of_get? hget

end

end Arena

/-! Matches in the two arenas. -/

def Attempt.excused : Attempt → Attempt
  | (.ok _, t) => (.ok true, t)
  | (.error error, t) => (.error error, t)

theorem Simulates.excused {R Q : Tokenizer → Tokenizer → Prop} {a b : Attempt}
    (h : Simulates R Q a b) : Simulates R Q (Attempt.excused a) (Attempt.excused b) := by
  rcases h.cases with ⟨cut, hcut⟩ | ⟨e, u, u', ha, hb, hq⟩ | ⟨v, u, u', ha, hb, hr⟩
  . left
    obtain ⟨result, t⟩ := a
    obtain rfl : result = .error (.endless cut) := hcut
    exact ⟨cut, rfl⟩
  . rw [ha, hb]
    exact Or.inr (Same.fail hq e)
  . rw [ha, hb]
    exact Or.inr (Same.ok hr true)

namespace Arena

theorem matchRepetition_optional (rule : RuleId) (body : Tokenizer → Attempt) (passes : Nat)
    (t : Tokenizer) :
    Endless (matchRepetition rule 0 (some 1) body passes 0 t) ∨
      matchRepetition rule 0 (some 1) body passes 0 t = Attempt.excused (body t) := by
  cases passes with
  | zero => exact Or.inl ⟨rule, rfl⟩
  | succ passes =>
    simp only [matchRepetition, Option.any_some, Nat.le_zero_eq, Nat.one_ne_zero, decide_false,
      Bool.false_eq_true, ↓reduceIte]
    cases hbody : body t with
    | mk result u =>
      cases result with
      | error error => exact Or.inr rfl
      | ok verdict =>
        cases verdict with
        | false => exact Or.inr rfl
        | true =>
          dsimp only
          split
          . exact Or.inr rfl
          . -- Only the bound on the passes can keep the loop from seeing that its maximum is reached.
            cases passes with
            | zero => exact Or.inl ⟨rule, rfl⟩
            | succ passes => exact Or.inr rfl

theorem matchAny_excused {enter : RuleId → Tokenizer → Attempt} {once never : RuleId}
    (h : ∀ t, enter never t = (.ok true, t)) (t : Tokenizer) :
    matchAny enter [once, never] t = Attempt.excused (enter once t) := by
  cases henter : enter once t with
  | mk result u =>
    cases result with
    | error error => simp [matchAny, henter, Attempt.excused]
    | ok verdict =>
      cases verdict with
      | false => simp [matchAny, henter, h, Attempt.excused]
      | true => simp [matchAny, henter, Attempt.excused]

section

variable {arena arena' : Arena} (hin : arena.Inside)
  (hspells : ∀ id rule, arena.get? id = some rule → arena'.Spells id rule)

include hin hspells

-- A choice enters its body one level deeper than the optional rule does, so that twice the depth is
-- always enough.
theorem matchWithin_spells {passes depth depth' : Nat} (hd : 2 * depth ≤ depth') {id : RuleId}
    (hid : id < arena.size) {t t' : Tokenizer} (ht : At (fun _ => True) t t') :
    Simulates (At fun _ => True) Eq (arena.matchWithin passes depth id t)
      (arena'.matchWithin passes depth' id t') := by
  induction depth generalizing depth' id t t' with
  | zero => exact Or.inl ⟨id, rfl⟩
  | succ depth ih =>
    obtain ⟨depth', rfl⟩ : ∃ n, depth' = n + 2 := ⟨depth' - 2, by omega⟩
    have hl : Lockstep (At fun _ => True) Eq := at_lockstep fun _ _ _ _ => trivial
    obtain ⟨rule, hrule⟩ : ∃ rule, arena.get? id = some rule :=
      ⟨_, Array.getElem?_eq_getElem hid⟩
    have hinside : ∀ child ∈ rule.successors, child < arena.size :=
      hin rule (Array.mem_of_getElem? hrule)
    have hchildren {depth' : Nat} (hd : 2 * depth ≤ depth') {children : List RuleId}
        (hc : ∀ child ∈ children, child < arena.size) {t t' : Tokenizer} (ht : At (fun _ => True) t t') :
        Simulates (At fun _ => True) Eq (matchAll (arena.matchWithin passes depth) children t)
          (matchAll (arena'.matchWithin passes depth') children t') :=
      matchAll_simulates (fun child hmem _ _ => ih hd (hc child hmem)) ht
    cases hspells id rule hrule with
    | @choice body once never hr ho hn =>
      have hempty (t : Tokenizer) : arena'.matchWithin passes (depth' + 1) never t = (.ok true, t) := by
        simp only [matchWithin, hn, matchAll]
      have honce : arena'.matchWithin passes (depth' + 1) once t' =
          matchAll (arena'.matchWithin passes depth') body t' := by
        simp only [matchWithin, ho]
      rw [matchWithin, matchWithin]
      simp only [hrule, hr]
      rw [matchAny_excused hempty, honce]
      rcases matchRepetition_optional id (matchAll (arena.matchWithin passes depth) body) passes t
        with hend | heq
      . exact Or.inl hend
      . rw [heq]
        have hbody : 2 * depth ≤ depth' := by omega
        exact Simulates.excused (hchildren hbody hinside ht)
    | same hr =>
      have hd : 2 * depth ≤ depth' + 1 := by omega
      rw [matchWithin, matchWithin]
      simp only [hrule, hr]
      rw [← hl.config ht]
      cases rule with
      | sequence children => exact hchildren hd hinside ht
      | choice children => exact matchAny_simulates (fun child hmem _ _ => ih hd (hinside child hmem)) ht
      | repetition min max body =>
        apply matchRepetition_simulates hl (at_synced _) _ _ _ id min max 0 ht (Or.inl rfl)
        . intro t ht
          exact matchAll_leads (arena.matchWithin_leads passes depth) body ht
        . intro t ht
          exact matchAll_leads (arena'.matchWithin_leads passes (depth' + 1)) body ht
        . intro t t' ht
          exact hchildren hd hinside ht
      | literal word => exact Or.inr (hl.token (.literal word) ht)
      | charClass test => exact Or.inr (hl.char test ht)
      | token kind => exact Or.inr (hl.token (.kind kind) ht)
      | reference name target =>
        cases target with
        | none => exact Or.inr (Same.fail (hl.halt ht) _)
        | some target => exact ih hd (hinside target (by simp [Rule.successors])) ht

theorem matchRule_spells {id : RuleId} (hid : id < arena.size) {t : Tokenizer} (ht : t.Consistent)
    (hend : ¬Endless (arena.matchRule id t)) : arena'.matchRule id t = arena.matchRule id t := by
  have hsame : arena.matchRule id t =
      arena'.matchWithin (passBound t) (2 * arena.depthBound t) id t :=
    (matchWithin_spells hin hspells (Nat.le_refl _) hid ⟨rfl, ht, trivial⟩).eq.resolve_left hend
  rw [hsame] at hend ⊢
  exact matchRule_eq_of_not_endless ht (Nat.le_refl _) hend

end

end Arena

namespace Grammar

/--
With its optional rules as choices the arena of a grammar has no optional rules left. All rules match as
before: with the same verdict or error, and leaving the same token stream behind.
-/
theorem matchRule_spelledOut {b : Builder} {grammar : Grammar} (hb : b.build = .ok grammar) :
    (∀ id rule, grammar.arena.spelledOut.get? id = some rule → rule.optionalBody? = none) ∧
    (∀ id rule, grammar.arena.get? id = some rule → grammar.arena.spelledOut.Spells id rule) ∧
    ∀ id < grammar.arena.size, ∀ t : Tokenizer, t.Reachable →
      grammar.arena.spelledOut.matchRule id t = grammar.arena.matchRule id t := by
  refine ⟨fun _ _ => Arena.optionalBody?_spelledOut, fun _ _ => Arena.spells_spelledOut, ?_⟩
  intro id hid t ht
  apply Arena.matchRule_spells (closed_of_build hb).rules (fun _ _ => Arena.spells_spelledOut) hid
    ht.consistent
  exact matchRule_not_endless hb ht.consistent id

def nestedOptionals : Builder :=
  { name := "optionals"
    arena := ⟨#[.literal "x", .reference "list" none, .repetition 0 (some 1) [1], .sequence [0, 2],
      .repetition 0 (some 1) [3, 2]]⟩
    definitions := [("list", 3)]
    root := some (.id 4) }

def brokenList : Tokenizer :=
  (Tokenizer.ofSource {} (Source.ofText "x x " ++ [.fault .truncated])).nextWordChar.2.pushBackWordChar.2

theorem matchRule_spelledOut_nestedOptionals :
    ∃ grammar, nestedOptionals.build = .ok grammar ∧ 4 < grammar.arena.size ∧ brokenList.Reachable ∧
      (∀ id rule, grammar.arena.spelledOut.get? id = some rule → rule.optionalBody? = none) ∧
      (∀ id rule, grammar.arena.get? id = some rule → grammar.arena.spelledOut.Spells id rule) ∧
      grammar.arena.spelledOut.matchRule 4 brokenList = grammar.arena.matchRule 4 brokenList := by
  have hsome : nestedOptionals.build.toOption.isSome = true := by
    decide +kernel
  have ht : brokenList.Reachable := .pushBackWordChar (.nextWordChar (.start _ _))
  cases hb : nestedOptionals.build with
  | error error => simp [hb, Except.toOption] at hsome
  | ok grammar =>
    have hid : 4 < grammar.arena.size := by
      rw [(Builder.sound_of_build hb).2.2]
      change 4 < (nestedOptionals.assembled 0).arena.size
      decide +kernel
    obtain ⟨hnone, hspells, hsame⟩ := matchRule_spelledOut hb
    exact ⟨grammar, rfl, hid, ht, hnone, hspells, hsame 4 hid brokenList ht⟩

end Grammar

end TokenGrammar
