import Mathlib.Data.List.Basic
import TokenGrammar.CommandLine

/-!
The arguments of a command that reads a document are a list of items, each of which is one argument or
two. What is accepted are the lists with one path among their items (`CommandLine.inputArgs_reads`).
-/

namespace TokenGrammar.CommandLine

def IsPath (arg : String) : Prop :=
  arg = "-" ∨ ¬['-'] <+: arg.toList

inductive Item where
  | inlineGrammar (name : String)
  | grammar (short : Bool) (name : String)
  | path (arg : String) (h : IsPath arg)

namespace Item

def args : Item → List String
  | inlineGrammar name => ["--grammar=" ++ name]
  | grammar short name => [if short then "-g" else "--grammar", name]
  | path arg _ => [arg]

def path? : Item → Option String
  | path arg _ => some arg
  | _ => none

def grammar? : Item → Option String
  | inlineGrammar name => some name
  | grammar _ name => some name
  | path _ _ => none

end Item

theorem inlineGrammar?_eq_some {arg name : String} :
    inlineGrammar? arg = some name ↔ arg = "--grammar=" ++ name := by
  unfold inlineGrammar?
  rw [Option.map_eq_some_iff]
  constructor
  . rintro ⟨rest, hrest, rfl⟩
    rw [List.isPrefixOf?_eq_some_iff_append_eq] at hrest
    rw [← String.toList_inj, String.toList_append, ← hrest, String.toList_ofList (l := rest)]
  . rintro rfl
    refine ⟨name.toList, ?_, String.ofList_toList⟩
    rw [List.isPrefixOf?_eq_some_iff_append_eq, String.toList_append]

theorem isPath_iff {arg : String} : isPath arg = true ↔ IsPath arg := by
  unfold isPath IsPath standardInput
  cases arg.toList with
  | nil => simp
  | cons c rest => simp [eq_comm (a := '-')]

theorem inlineGrammar?_of_path {arg : String} (h : IsPath arg) : inlineGrammar? arg = none := by
  rw [Option.eq_none_iff_forall_ne_some]
  intro name hname
  rw [inlineGrammar?_eq_some] at hname
  subst hname
  rcases h with h | h
  . have := congrArg (fun s : String => s.toList.length) h
    simp at this
  . simp at h

theorem ne_flag_of_path {arg : String} (h : IsPath arg) : arg ≠ "--grammar" ∧ arg ≠ "-g" := by
  constructor
  . rintro rfl
    revert h
    unfold IsPath
    decide
  . rintro rfl
    revert h
    unfold IsPath
    decide

def chosen (paths grammars : List String) : Option (String × Option String) :=
  match paths with
  | [path] => some (path, grammars.getLast?)
  | _ => none

theorem chosen_eq_some {paths grammars : List String} {path : String} {grammar : Option String} :
    chosen paths grammars = some (path, grammar) ↔ paths = [path] ∧ grammars.getLast? = grammar := by
  unfold chosen
  split <;> simp_all

theorem chosen_eq_none {paths grammars : List String} :
    chosen paths grammars = none ↔ paths.length ≠ 1 := by
  unfold chosen
  split
  . simp
  . next h =>
    simp only [List.length_eq_one_iff, ne_eq, true_iff, not_exists]
    exact h

theorem chosen_append (paths before grammars : List String) (name : String) :
    chosen paths (name :: grammars) = chosen paths (before ++ name :: grammars) := by
  unfold chosen
  split
  . rw [List.getLast?_append_cons]
  . rfl

variable {path grammar : Option String}

theorem go_inlineGrammar (name : String) (args : List String) :
    inputArgs.go path grammar (("--grammar=" ++ name) :: args) = inputArgs.go path (some name) args := by
  rw [inputArgs.go.eq_def path grammar]
  dsimp only
  rw [inlineGrammar?_eq_some.2 rfl]

theorem go_grammar (short : Bool) (name : String) (args : List String) :
    inputArgs.go path grammar ((if short then "-g" else "--grammar") :: name :: args) =
      inputArgs.go path (some name) args := by
  rw [inputArgs.go]
  cases short with
  | false => rfl
  | true => rfl

theorem go_path {arg : String} (h : IsPath arg) (args : List String) :
    inputArgs.go path grammar (arg :: args) =
      if path.isNone then inputArgs.go (some arg) grammar args else none := by
  rw [inputArgs.go.eq_def path grammar]
  dsimp only
  rw [inlineGrammar?_of_path h]
  simp [ne_flag_of_path h, isPath_iff.2 h]

theorem go_items (items : List Item) :
    inputArgs.go path grammar (items.flatMap Item.args) =
      chosen (path.toList ++ items.filterMap Item.path?)
        (grammar.toList ++ items.filterMap Item.grammar?) := by
  induction items generalizing path grammar with
  | nil => cases path <;> cases grammar <;> rfl
  | cons item items ih =>
    have hnamed : ∀ name, inputArgs.go path (some name) (items.flatMap Item.args) =
        chosen (path.toList ++ items.filterMap Item.path?)
          (grammar.toList ++ name :: items.filterMap Item.grammar?) := by
      intro name
      rw [ih]
      apply chosen_append
    rw [List.flatMap_cons]
    cases item with
    | inlineGrammar name => exact (go_inlineGrammar name _).trans (hnamed name)
    | grammar short name => exact (go_grammar short name _).trans (hnamed name)
    | path arg h =>
      rw [Item.args, List.singleton_append, go_path h]
      cases path with
      | none => exact ih
      | some first => rfl

theorem exists_items {args : List String} (h : (inputArgs.go path grammar args).isSome) :
    ∃ items : List Item, items.flatMap Item.args = args := by
  fun_induction inputArgs.go path grammar args with
  | case1 => exact ⟨[], rfl⟩
  | case2 path grammar arg args name hname ih =>
    obtain ⟨items, rfl⟩ := ih h
    rw [inlineGrammar?_eq_some] at hname
    subst hname
    exact ⟨.inlineGrammar name :: items, rfl⟩
  | case3 => simp at h
  | case4 path grammar arg _ hflag name args ih =>
    obtain ⟨items, rfl⟩ := ih h
    simp only [Bool.or_eq_true, decide_eq_true_eq] at hflag
    rcases hflag with rfl | rfl
    . exact ⟨.grammar false name :: items, rfl⟩
    . exact ⟨.grammar true name :: items, rfl⟩
  | case5 path grammar arg args _ _ hpath ih =>
    obtain ⟨items, rfl⟩ := ih h
    rw [Bool.and_eq_true] at hpath
    exact ⟨.path arg (isPath_iff.1 hpath.1) :: items, rfl⟩
  | case6 => simp at h

theorem inputArgs_reads (args : List String) :
    (∀ path grammar, inputArgs args = some (path, grammar) ↔
      ∃ items : List Item, items.flatMap Item.args = args ∧
        items.filterMap Item.path? = [path] ∧ (items.filterMap Item.grammar?).getLast? = grammar) ∧
    (inputArgs args = none ↔
      ¬∃ items : List Item, items.flatMap Item.args = args ∧ (items.filterMap Item.path?).length = 1) := by
  have hread : ∀ items : List Item, inputArgs (items.flatMap Item.args) =
      chosen (items.filterMap Item.path?) (items.filterMap Item.grammar?) := by
    intro items
    apply go_items
  constructor
  . intro path grammar
    constructor
    . intro h
      obtain ⟨items, rfl⟩ := exists_items (Option.isSome_of_eq_some h)
      rw [hread, chosen_eq_some] at h
      exact ⟨items, rfl, h⟩
    . rintro ⟨items, rfl, hpath, hgrammar⟩
      rw [hread, chosen_eq_some]
      exact ⟨hpath, hgrammar⟩
  . constructor
    . rintro h ⟨items, rfl, hone⟩
      rw [hread, chosen_eq_none] at h
      exact h hone
    . intro h
      rw [Option.eq_none_iff_forall_ne_some]
      rintro ⟨path, grammar⟩ hsome
      obtain ⟨items, rfl⟩ := exists_items (Option.isSome_of_eq_some hsome)
      rw [hread, chosen_eq_some] at hsome
      apply h
      exact ⟨items, rfl, by rw [hsome.1]; rfl⟩

end TokenGrammar.CommandLine
