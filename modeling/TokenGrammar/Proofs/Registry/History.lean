import TokenGrammar.Proofs.Grammar.Build
import TokenGrammar.Proofs.Text.Sorted
import TokenGrammar.Registry

/-!
A registry is a map from names to grammars that keeps an order. What it lists after any number of
registrations follows from these alone: for each name, where it was first registered, the grammar that was
registered last (`Registry.listed`), and all lookups read this list (`Registry.ofList_history`).
-/

namespace TokenGrammar

structure Recipe where
  name : String
  calls : List Builder.Call
  grammar : Grammar
  built : (Builder.run { name } calls).build = .ok grammar

namespace Recipe

def given (recipe : Recipe) : List String :=
  recipe.calls.filterMap fun
    | .extension extension => some extension
    | _ => none

def gives (recipe : Recipe) (extension : String) : Bool :=
  recipe.given.any fun given => normalExtension given = normalExtension extension

end Recipe

/-! What the calls leave in the grammar. -/

namespace Builder

theorem perform_name (b : Builder) (call : Call) : (b.perform call).name = b.name := by
  cases call with
  | define name rule =>
    cases hlookup : b.definitions.lookup name with
    | none => simp [perform, Call.step, run_define, hlookup]
    | some id => simp [perform, Call.step, run_define, hlookup]
  | extension name =>
    change (if b.extensions.contains (normalExtension name) then b else _).name = _
    split <;> rfl
  | _ => rfl

theorem run_name (b : Builder) (calls : List Call) : (b.run calls).name = b.name := by
  induction calls generalizing b with
  | nil => rfl
  | cons call calls ih =>
    rw [← b.perform_name call]
    apply ih

theorem mem_perform_extensions {b : Builder} {call : Call} {x : String} :
    x ∈ (b.perform call).extensions ↔
      x ∈ b.extensions ∨ ∃ extension, call = .extension extension ∧ normalExtension extension = x := by
  cases call with
  | define name rule =>
    cases hlookup : b.definitions.lookup name with
    | none => simp [perform, Call.step, run_define, hlookup]
    | some id => simp [perform, Call.step, run_define, hlookup]
  | extension name =>
    change x ∈ (if b.extensions.contains (normalExtension name) then b else
      { b with extensions := b.extensions ++ [normalExtension name] }).extensions ↔ _
    split
    . next hmem =>
      simp only [List.contains_iff_mem] at hmem
      constructor
      . exact Or.inl
      . rintro (hx | ⟨extension, heq, rfl⟩)
        . exact hx
        . cases heq
          exact hmem
    . simp [eq_comm]
  | _ =>
    change x ∈ b.extensions ↔ _
    simp

theorem mem_run_extensions {b : Builder} {calls : List Call} {x : String} :
    x ∈ (b.run calls).extensions ↔
      x ∈ b.extensions ∨ ∃ extension, .extension extension ∈ calls ∧ normalExtension extension = x := by
  induction calls generalizing b with
  | nil => simp [run]
  | cons call calls ih =>
    change x ∈ ((b.perform call).run calls).extensions ↔ _
    rw [ih, mem_perform_extensions, or_assoc]
    simp only [List.mem_cons, or_and_right, exists_or, eq_comm]

end Builder

namespace Recipe

theorem mem_given {recipe : Recipe} {extension : String} :
    extension ∈ recipe.given ↔ .extension extension ∈ recipe.calls := by
  unfold given
  rw [List.mem_filterMap]
  constructor
  . rintro ⟨call, hmem, hcall⟩
    split at hcall
    . cases hcall
      exact hmem
    . simp at hcall
  . intro hmem
    exact ⟨_, hmem, rfl⟩

theorem grammar_name (recipe : Recipe) : recipe.grammar.name = recipe.name := by
  rw [(Builder.sound_of_build recipe.built).2.2]
  exact Builder.run_name _ recipe.calls

theorem toLower_toLower (c : Char) : c.toLower.toLower = c.toLower := by
  unfold Char.toLower
  grind

theorem equalIgnoringCase_normalExtension (given extension : String) :
    equalIgnoringCase (normalExtension given).toList (bareExtension extension) =
      decide (normalExtension given = normalExtension extension) := by
  have hlower (chars : List Char) : (chars.map Char.toLower).map Char.toLower = chars.map Char.toLower := by
    rw [List.map_map]
    exact List.map_congr_left fun c _ => toLower_toLower c
  unfold equalIgnoringCase normalExtension
  rw [String.toList_ofList, hlower, decide_eq_decide, String.ofList_inj]

theorem grammar_hasExtension (recipe : Recipe) (extension : String) :
    recipe.grammar.hasExtension extension = recipe.gives extension := by
  have hextensions : recipe.grammar.extensions = (Builder.run { name := recipe.name } recipe.calls).extensions := by
    rw [(Builder.sound_of_build recipe.built).2.2]
    rfl
  unfold Grammar.hasExtension gives
  rw [hextensions, Bool.eq_iff_iff, List.any_eq_true, List.any_eq_true]
  constructor
  . rintro ⟨known, hknown, hequal⟩
    rcases Builder.mem_run_extensions.1 hknown with hnil | ⟨given, hmem, rfl⟩
    . simp at hnil
    . rw [equalIgnoringCase_normalExtension] at hequal
      exact ⟨given, mem_given.2 hmem, hequal⟩
  . rintro ⟨given, hmem, hequal⟩
    refine ⟨normalExtension given, Builder.mem_run_extensions.2 (.inr ⟨given, mem_given.1 hmem, rfl⟩), ?_⟩
    rw [equalIgnoringCase_normalExtension]
    exact hequal

end Recipe

namespace Registry

def lastNamed (history : List Recipe) (name : String) : Option Recipe :=
  history.reverse.find? (·.name = name)

/--
The grammars that a registry lists: every name stands where it was first registered, for the grammar that
was registered last.
-/
def listed (history : List Recipe) : List Recipe :=
  (history.map Recipe.name).eraseDups.filterMap (lastNamed history)

theorem lastNamed_append (history : List Recipe) (recipe : Recipe) (name : String) :
    lastNamed (history ++ [recipe]) name =
      if recipe.name = name then some recipe else lastNamed history name := by
  unfold lastNamed
  rw [List.reverse_append, List.reverse_singleton, List.singleton_append, List.find?_cons]
  split <;> simp_all

theorem name_of_lastNamed {history : List Recipe} {name : String} {recipe : Recipe}
    (h : lastNamed history name = some recipe) : recipe.name = name := by
  simpa using List.find?_some h

theorem exists_lastNamed {history : List Recipe} {name : String} (h : name ∈ history.map Recipe.name) :
    ∃ recipe, lastNamed history name = some recipe := by
  obtain ⟨recipe, hmem, hname⟩ := List.mem_map.1 h
  rw [← Option.isSome_iff_exists, lastNamed, List.find?_isSome]
  exact ⟨recipe, by simpa using hmem, by simpa using hname⟩

theorem mem_listed {history : List Recipe} {recipe : Recipe} :
    recipe ∈ listed history ↔ lastNamed history recipe.name = some recipe := by
  unfold listed
  rw [List.mem_filterMap]
  constructor
  . rintro ⟨name, _, hlast⟩
    rw [name_of_lastNamed hlast]
    exact hlast
  . intro hlast
    refine ⟨recipe.name, ?_, hlast⟩
    rw [List.mem_eraseDups]
    apply List.mem_map_of_mem
    simpa using List.mem_of_find?_eq_some hlast

theorem listed_map_name (history : List Recipe) :
    (listed history).map Recipe.name = (history.map Recipe.name).eraseDups := by
  unfold listed
  rw [List.map_filterMap]
  conv => rhs; rw [← List.filterMap_some (l := (history.map Recipe.name).eraseDups)]
  apply List.filterMap_congr
  intro name hmem
  obtain ⟨recipe, hlast⟩ := exists_lastNamed (List.mem_eraseDups.1 hmem)
  rw [hlast, Option.map_some, name_of_lastNamed hlast]

theorem find?_listed (history : List Recipe) (name : String) :
    (listed history).find? (·.name = name) = lastNamed history name := by
  cases hfind : (listed history).find? (·.name = name) with
  | some recipe =>
    have hname : recipe.name = name := by simpa using List.find?_some hfind
    rw [← hname]
    exact (mem_listed.1 (List.mem_of_find?_eq_some hfind)).symm
  | none =>
    cases hlast : lastNamed history name with
    | none => rfl
    | some recipe =>
      have hname := name_of_lastNamed hlast
      rw [← hname] at hlast
      have hne := List.find?_eq_none.1 hfind recipe (mem_listed.2 hlast)
      simp [hname] at hne

theorem listed_append_of_notMem {history : List Recipe} {recipe : Recipe}
    (h : recipe.name ∉ history.map Recipe.name) :
    listed (history ++ [recipe]) = listed history ++ [recipe] := by
  have hnew : [recipe.name].removeAll (history.map Recipe.name) = [recipe.name] := by
    simpa [List.removeAll] using h
  have hold : (history.map Recipe.name).eraseDups.filterMap (lastNamed (history ++ [recipe])) =
      listed history := by
    apply List.filterMap_congr
    intro name hmem
    rw [lastNamed_append, if_neg]
    rintro rfl
    exact h (List.mem_eraseDups.1 hmem)
  unfold listed at hold ⊢
  rw [List.map_append, List.map_singleton, List.eraseDups_append, hnew, List.filterMap_append, hold]
  simp [List.eraseDups_cons, lastNamed_append]

theorem listed_append_of_mem {history : List Recipe} {recipe : Recipe}
    (h : recipe.name ∈ history.map Recipe.name) :
    listed (history ++ [recipe]) =
      (listed history).map fun known => if known.name = recipe.name then recipe else known := by
  have hold : [recipe.name].removeAll (history.map Recipe.name) = [] := by
    simpa [List.removeAll] using h
  unfold listed
  rw [List.map_append, List.map_singleton, List.eraseDups_append, hold, List.eraseDups_nil,
    List.append_nil, List.map_filterMap]
  apply List.filterMap_congr
  intro name hmem
  obtain ⟨known, hlast⟩ := exists_lastNamed (List.mem_eraseDups.1 hmem)
  rw [lastNamed_append, hlast, Option.map_some, name_of_lastNamed hlast]
  split
  . next hname => rw [if_pos hname.symm]
  . next hname => rw [if_neg fun heq => hname heq.symm]

theorem ofList_append (grammars : List Grammar) (grammar : Grammar) :
    ofList (grammars ++ [grammar]) = ((ofList grammars).register grammar).2 := by
  simp [ofList]

theorem register_eq {registry : Registry} (grammar : Grammar)
    (hnodup : (registry.grammars.map Grammar.name).Nodup) :
    registry.register grammar =
      (registry.byName? grammar.name,
        { grammars :=
            if grammar.name ∈ registry.grammars.map Grammar.name then
              registry.grammars.map fun known => if known.name = grammar.name then grammar else known
            else registry.grammars ++ [grammar] }) := by
  unfold register byName?
  split
  . next slot hslot =>
    obtain ⟨hlt, hname, hfirst⟩ := List.findIdx?_eq_some_iff_getElem.1 hslot
    have hfind : registry.grammars.find? (·.name = grammar.name) = some registry.grammars[slot] :=
      List.find?_eq_some_iff_getElem.2 ⟨hname, slot, hlt, rfl, fun j hj => by simpa using hfirst j hj⟩
    have hmem : grammar.name ∈ registry.grammars.map Grammar.name :=
      List.mem_map.2 ⟨_, List.getElem_mem hlt, by simpa using hname⟩
    have hset : registry.grammars.set slot grammar =
        registry.grammars.map fun known => if known.name = grammar.name then grammar else known := by
      apply List.ext_getElem (by simp)
      intro i _ hi
      have hi : i < registry.grammars.length := by simpa using hi
      have hsame : registry.grammars[i].name = grammar.name ↔ slot = i := by
        have hinj := @List.Nodup.getElem_inj_iff _ _ hnodup i (by simpa using hi) slot (by simpa using hlt)
        rw [List.getElem_map, List.getElem_map, of_decide_eq_true hname] at hinj
        exact hinj.trans eq_comm
      rw [List.getElem_set, List.getElem_map]
      by_cases hslot : slot = i
      . rw [if_pos hslot, if_pos (hsame.2 hslot)]
      . rw [if_neg hslot, if_neg fun hname => hslot (hsame.1 hname)]
    rw [hfind, if_pos hmem, hset, List.getElem?_eq_getElem hlt]
  . next hnone =>
    rw [List.findIdx?_eq_none_iff] at hnone
    have hnotMem : grammar.name ∉ registry.grammars.map Grammar.name := by
      rintro hmem
      obtain ⟨known, hmem, hname⟩ := List.mem_map.1 hmem
      exact absurd hname (of_decide_eq_false (hnone known hmem))
    rw [List.find?_eq_none.2 fun known hmem => by simp [hnone known hmem], if_neg hnotMem]

def Lists (registry : Registry) (history : List Recipe) : Prop :=
  registry.grammars = (listed history).map Recipe.grammar

theorem Lists.byName? {registry : Registry} {history : List Recipe} (h : registry.Lists history)
    (name : String) : registry.byName? name = (lastNamed history name).map Recipe.grammar := by
  have hname : (fun grammar : Grammar => decide (grammar.name = name)) ∘ Recipe.grammar =
      fun recipe => decide (recipe.name = name) := by
    funext recipe
    simp only [Function.comp_apply, recipe.grammar_name]
  unfold Registry.byName?
  rw [h, List.find?_map, hname, find?_listed]

theorem Lists.map_name {registry : Registry} {history : List Recipe} (h : registry.Lists history) :
    registry.grammars.map Grammar.name = (history.map Recipe.name).eraseDups := by
  rw [h, List.map_map, ← listed_map_name]
  apply List.map_congr_left
  intro recipe _
  exact recipe.grammar_name

theorem Lists.nodup {registry : Registry} {history : List Recipe} (h : registry.Lists history) :
    (registry.grammars.map Grammar.name).Nodup := by
  rw [h.map_name]
  apply Text.nodup_eraseDups

theorem Lists.register {registry : Registry} {history : List Recipe} (h : registry.Lists history)
    (recipe : Recipe) :
    (registry.register recipe.grammar).1 = (lastNamed history recipe.name).map Recipe.grammar ∧
      (registry.register recipe.grammar).2.Lists (history ++ [recipe]) := by
  rw [register_eq _ h.nodup, recipe.grammar_name, h.byName?, h.map_name]
  refine ⟨rfl, ?_⟩
  unfold Lists
  dsimp only
  by_cases hmem : recipe.name ∈ history.map Recipe.name
  . rw [if_pos (List.mem_eraseDups.2 hmem), listed_append_of_mem hmem, h, List.map_map, List.map_map]
    apply List.map_congr_left
    intro known _
    simp only [Function.comp_apply, known.grammar_name]
    split <;> rfl
  . rw [if_neg fun hdup => hmem (List.mem_eraseDups.1 hdup), listed_append_of_notMem hmem, h,
      List.map_append]
    rfl

theorem ofList_lists (history : List Recipe) : (ofList (history.map Recipe.grammar)).Lists history := by
  induction history using List.reverseRecOn with
  | nil => rfl
  | append_singleton history recipe ih =>
    rw [List.map_append, List.map_singleton, ofList_append]
    exact (ih.register recipe).2

theorem Lists.byExtension? {registry : Registry} {history : List Recipe} (h : registry.Lists history)
    (extension : String) :
    registry.byExtension? extension =
      if normalExtension extension = "" then none
      else ((listed history).find? (·.gives extension)).map Recipe.grammar := by
  have hgives : (fun grammar : Grammar => grammar.hasExtension extension) ∘ Recipe.grammar =
      fun recipe => recipe.gives extension := by
    funext recipe
    exact recipe.grammar_hasExtension extension
  have hempty : (bareExtension extension).isEmpty = true ↔ normalExtension extension = "" := by
    rw [List.isEmpty_iff, ← String.toList_inj, normalExtension, String.toList_ofList]
    simp
  unfold Registry.byExtension?
  rw [h, List.find?_map, hgives]
  simp only [hempty]

/--
A registry after any registrations, each of a grammar that was put together somehow. No two grammars have
the same name; the names stand in the order in which they were first registered, each for the grammar that
was registered last, which is also what is found by name. Registering one more grammar returns the one
that gives way to it. What is found by an extension is the first grammar of the list that was given an
extension with the same normal form, whatever was given to grammars that have given way.
-/
theorem ofList_history (history : List Recipe) :
    let registry := ofList (history.map Recipe.grammar)
    (registry.grammars.map Grammar.name).Nodup ∧
    registry.grammars.map Grammar.name = (history.map Recipe.name).eraseDups ∧
    registry.grammars = (listed history).map Recipe.grammar ∧
    (∀ name, registry.byName? name = (lastNamed history name).map Recipe.grammar) ∧
    (∀ recipe : Recipe, registry.register recipe.grammar =
      ((lastNamed history recipe.name).map Recipe.grammar,
        ofList ((history ++ [recipe]).map Recipe.grammar))) ∧
    (∀ extension, registry.byExtension? extension =
      if normalExtension extension = "" then none
      else ((listed history).find? (·.gives extension)).map Recipe.grammar) := by
  intro registry
  have hlists : registry.Lists history := ofList_lists history
  refine ⟨hlists.nodup, hlists.map_name, hlists, hlists.byName?, ?_, hlists.byExtension?⟩
  intro recipe
  rw [List.map_append, List.map_singleton, ofList_append]
  exact Prod.ext (hlists.register recipe).1 rfl

def oneWord (word : String) (extensions : List String) : List Builder.Call :=
  .literal word :: .root 0 :: extensions.map .extension

def logo : Recipe where
  name := "logo"
  calls := oneWord "to" [".LG", "tt"]
  grammar := ⟨"logo", ["lg", "tt"], {}, ⟨#[.literal "to"]⟩, [], 0⟩
  built := by decide +kernel

def turtle : Recipe where
  name := "turtle"
  calls := oneWord "go" ["TT", "lg"]
  grammar := ⟨"turtle", ["tt", "lg"], {}, ⟨#[.literal "go"]⟩, [], 0⟩
  built := by decide +kernel

def laterLogo : Recipe where
  name := "logo"
  calls := oneWord "end" ["Lg"]
  grammar := ⟨"logo", ["lg"], {}, ⟨#[.literal "end"]⟩, [], 0⟩
  built := by decide +kernel

-- The later grammar keeps the place of the one that gave way to it, but not its second extension.
theorem ofList_history_replaced :
    let registry := ofList ([logo, turtle, laterLogo].map Recipe.grammar)
    registry.grammars = [laterLogo.grammar, turtle.grammar] ∧
      registry.byName? "logo" = some laterLogo.grammar ∧ registry.byName? "basic" = none ∧
      (registry.register logo.grammar).1 = some laterLogo.grammar ∧
      registry.byExtension? ".LG" = some laterLogo.grammar ∧ registry.byExtension? "tt" = some turtle.grammar ∧
      registry.byExtension? "." = none := by
  intro registry
  obtain ⟨_, _, hgrammars, hnamed, hregister, hextension⟩ := ofList_history [logo, turtle, laterLogo]
  have hregister := hregister logo
  refine ⟨hgrammars.trans ?_, (hnamed _).trans ?_, (hnamed _).trans ?_, ?_, (hextension _).trans ?_,
    (hextension _).trans ?_, (hextension _).trans ?_⟩
  . decide +kernel
  . decide +kernel
  . decide +kernel
  . rw [hregister]
    decide +kernel
  . decide +kernel
  . decide +kernel
  . decide +kernel

end Registry

end TokenGrammar
