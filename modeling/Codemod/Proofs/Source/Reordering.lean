import Codemod.Proofs.Java.Agreement
import Codemod.Proofs.Recipes.MethodMentions
import Mathlib.Data.List.FinRange

/-!
Source sets in another order. The files of a source set are parsed one by one and attributed
together. If no class is declared twice, what each file gets hangs neither on its place nor on the
files that have no tree.
-/

namespace Codemod.Source

open Codemod.Java Codemod.Recipes.MethodName Codemod.Tree

theorem filterMap_picks {α β : Type} [DecidableEq α] {f : α → Option β} {picks all : List α}
    (hpicks : picks.Nodup) (hall : all.Nodup) (hmem : ∀ a ∈ picks, a ∈ all)
    (hothers : ∀ a ∈ all, a ∉ picks → f a = none) :
    (picks.filterMap f).Perm (all.filterMap f) := by
  have hperm : picks.Perm (all.filter fun a => a ∈ picks) := by
    refine (List.perm_ext_iff_of_nodup hpicks (hall.filter _)).2 fun a => ?_
    simp only [List.mem_filter, decide_eq_true_eq]
    exact ⟨fun h => ⟨hmem a h, h⟩, And.right⟩
  have hsame : (all.filter fun a => a ∈ picks).filterMap f = all.filterMap f := by
    rw [List.filterMap_filter]
    refine List.filterMap_congr fun a ha => ?_
    split_ifs with hpicked
    · rfl
    · exact (hothers a ha (by simpa using hpicked)).symm
  exact hsame ▸ hperm.filterMap f

theorem unitsOf_map {α : Type} (input : α → String × String) (places : List α) :
    unitsOf (places.map input) = places.filterMap fun a => (parseUnit (input a).2).toOption := by
  rw [unitsOf, successes, List.map_map, List.filterMap_map]
  refine List.filterMap_congr fun a _ => ?_
  rw [Function.comp_apply, Function.comp_apply, parseJava]
  cases parseUnit (input a).2 <;> rfl

theorem unitsOf_picks {inputs : List (String × String)} {picks : List (Fin inputs.length)}
    (honce : picks.Nodup)
    (hothers : ∀ i, i ∉ picks → (parseUnit (inputs.get i).2).toOption = none) :
    (unitsOf (picks.map inputs.get)).Perm (unitsOf inputs) := by
  have hall : inputs = (List.finRange inputs.length).map inputs.get := by
    rw [List.map_get_finRange]
  rw [unitsOf_map]
  refine (filterMap_picks honce (List.nodup_finRange _) (fun i _ => List.mem_finRange i)
    fun i _ => hothers i).trans (.of_eq ?_)
  rw [← unitsOf_map, ← hall]

theorem parseAll_eq (inputs : List (String × String)) :
    Language.java.parseAll inputs = inputs.map fun i => (parseJava i.1 i.2).map fun unit =>
      ⟨i.1, i.2, attributeUnit (.ofUnits (unitsOf inputs)) unit⟩ := by
  rw [Language.parseAll, parseJavaSet_eq]

theorem length_parseAll (inputs : List (String × String)) :
    (Language.java.parseAll inputs).length = inputs.length := by
  rw [parseAll_eq, List.length_map]

theorem get_of_eq_map {α β : Type} {f : α → β} {xs : List α} {ys : List β} (h : ys = xs.map f)
    (hlength : xs.length = ys.length) (i : Fin xs.length) :
    ys.get (i.cast hlength) = f (xs.get i) := by
  subst h
  simp

theorem get_parseAll (inputs : List (String × String)) (i : Fin inputs.length) :
    (Language.java.parseAll inputs).get (i.cast (length_parseAll inputs).symm) =
      (parseJava (inputs.get i).1 (inputs.get i).2).map fun unit =>
        ⟨(inputs.get i).1, (inputs.get i).2,
          attributeUnit (.ofUnits (unitsOf inputs)) unit⟩ :=
  get_of_eq_map (parseAll_eq inputs) (length_parseAll inputs).symm i

theorem attributed_agrees {symbols symbols' : SymbolTable} (hagrees : symbols.Agrees symbols')
    (path text : String) :
    ((parseJava path text).map fun unit =>
        (⟨path, text, attributeUnit symbols' unit⟩ : SourceFile)) =
      (parseJava path text).map fun unit => ⟨path, text, attributeUnit symbols unit⟩ := by
  cases hparse : parseJava path text with
  | error failure => rfl
  | ok unit =>
      obtain ⟨hunit, _⟩ := unit_of_parseUnit (parseJava_ok.1 hparse)
      rw [Except.map, Except.map, attributeUnit_agrees hagrees hunit.kind]

/-- Inputs that are picked in any order have the results that they have among all inputs, trees and
attribution included, if no class is declared twice and the inputs left out do not parse. -/
theorem parseAll_picks {inputs : List (String × String)}
    (hnames : (knownClasses (unitsOf inputs)).Nodup) {picks : List (Fin inputs.length)}
    (honce : picks.Nodup)
    (hothers : ∀ i, i ∉ picks → (parseUnit (inputs.get i).2).toOption = none) :
    Language.java.parseAll (picks.map inputs.get) =
      picks.map fun i =>
        (Language.java.parseAll inputs).get (i.cast (length_parseAll inputs).symm) := by
  have hagrees := agrees_ofUnits (unitsOf_picks honce hothers) hnames
  rw [parseAll_eq, List.map_map]
  refine List.map_congr_left fun i _ => ?_
  rw [get_parseAll]
  exact attributed_agrees hagrees _ _

/-- A call of an inherited method means the same without the file that does not parse, and with the
file of the other class in front. -/
theorem parseAll_picks_inherited :
    let inputs :=
      [ ("A.java", "class A extends B \x7b void a() \x7b b(); \x7d \x7d"),
        ("Bad.java", "class Bad \x7b void a() \x7b for (;;) \x7b\x7d \x7d \x7d"),
        ("B.java", "class B \x7b void b() \x7b\x7d \x7d") ]
    let picks : List (Fin inputs.length) := [2, 0]
    (filesOf (picks.map inputs.get)).map (fun file => (mentions file.root).map Prod.fst) =
        [["b"], ["a", "b"]] ∧
      Language.java.parseAll (picks.map inputs.get) =
        picks.map fun i =>
          (Language.java.parseAll inputs).get (i.cast (length_parseAll inputs).symm) := by
  intro inputs picks
  exact ⟨by decide +kernel,
    parseAll_picks (by decide +kernel) (by decide +kernel) (by decide +kernel)⟩

end Codemod.Source
