import Codemod.Proofs.Engine.NewTrees

/-!
A tree of recipes is the list of its recipes in preorder. The main statement says so for the two
recursions at once: an application is a fold over that list, and a validation its failures one
recipe after another.
-/

namespace Codemod.Recipe

open Codemod.Tree

/-! ### Application -/

/-- The tree behind a recipe's own pass. -/
def behind (root : Node) (recipe : Recipe) : Node :=
  (recipe.own root).getD root

/-- The recipes whose own pass replaces the tree that those before them left, in their order. -/
def replacing (rs : List Recipe) (root : Node) : List Recipe :=
  ((rs.zip (rs.scanl behind root)).filter fun (r, tree) => (r.own tree).isSome).map Prod.fst

theorem replacing_cons (r : Recipe) (rs : List Recipe) (root : Node) :
    replacing (r :: rs) root =
      if (r.own root).isSome then r :: replacing rs (behind root r)
      else replacing rs (behind root r) := by
  rw [replacing, List.scanl_cons, List.zip_cons_cons, List.filter_cons]
  split_ifs <;> rfl

theorem root_inOrder (rs : List Recipe) (root : Node) :
    (inOrder rs root).root = rs.foldl behind root := by
  induction rs generalizing root with
  | nil => rfl
  | cons r rs ih => rw [root_inOrder_cons, ih, List.foldl_cons, behind]

theorem changedBy_inOrder (rs : List Recipe) (root : Node) :
    (inOrder rs root).changedBy = (replacing rs root).map Recipe.name := by
  induction rs generalizing root with
  | nil => rfl
  | cons r rs ih =>
      rw [inOrder, replacing_cons, behind]
      cases r.own root with
      | none => exact ih root
      | some next => exact congrArg (r.name :: ·) (ih next)

/-! ### Validation -/

mutual

theorem validate_eq : (recipe : Recipe) → recipe.validate = recipe.preorder.flatMap ownFailures
  | ⟨_, _, _, _, _, children⟩ => by
      rw [validate, validateAll_eq children, preorder, List.flatMap_cons]

theorem validateAll_eq : (recipes : List Recipe) →
    validateAll recipes = (preorderAll recipes).flatMap ownFailures
  | [] => rfl
  | recipe :: recipes => by
      rw [validateAll, validate_eq recipe, validateAll_eq recipes, preorderAll,
        List.flatMap_append]

end

theorem ownFailures_eq_nil {recipe : Recipe} :
    recipe.ownFailures = [] ↔
      (∀ option ∈ recipe.options, option.check = none) ∧ recipe.customFailures = [] := by
  rw [ownFailures, List.append_eq_nil_iff, List.filterMap_eq_nil_iff]
  simp only [Option.map_eq_none_iff]

theorem validate_eq_nil {recipe : Recipe} :
    recipe.validate = [] ↔ ∀ r ∈ recipe.preorder, r.ownFailures = [] := by
  rw [validate_eq, List.flatMap_eq_nil_iff]

/-! ### Both -/

/-- A recipe runs its own pass and those of the recipes below it in preorder, each on the tree that
the one before it left, and names those whose pass replaced the tree. Its failures are those of the
same recipes in the same order, so it is valid if each of them is. -/
theorem runs_in_preorder (recipe : Recipe) :
    (∀ (root : Node) (names : List String),
      (recipe.apply ⟨root, names⟩).root = recipe.preorder.foldl behind root ∧
        (recipe.apply ⟨root, names⟩).changedBy =
          names ++ (replacing recipe.preorder root).map Recipe.name) ∧
      recipe.validate = (recipe.preorder.flatMap fun r =>
        (r.options.filterMap fun option =>
          option.check.map fun fault => ⟨r.name, option.name, fault.message⟩) ++
            r.customFailures) ∧
      (recipe.validate = [] ↔ ∀ r ∈ recipe.preorder,
        (∀ option ∈ r.options, option.check = none) ∧ r.customFailures = []) := by
  refine ⟨fun root names => ?_, validate_eq recipe, ?_⟩
  · rw [apply_eq_inOrder]
    exact ⟨root_inOrder _ root, congrArg (names ++ ·) (changedBy_inOrder _ root)⟩
  · rw [validate_eq_nil]
    simp only [ownFailures_eq_nil]

end Codemod.Recipe
