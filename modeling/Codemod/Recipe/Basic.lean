import Codemod.Recipe.Option
import Codemod.Tree.Walk

/-!
Recipes: a pass over a tree with options, and further recipes that run behind it. The main
notions are validation, which lists every failure of a recipe and those below it, and
application, which names those that changed the tree.
-/

namespace Codemod.Recipe

open Codemod.Tree

/-- What is made of a tree; none if it stays. -/
abbrev Pass := Node → Option Node

/-- The pass of a visitor that starts in the state. -/
def passOf {σ : Type} (visitor : Visitor σ) (start : σ) : Pass :=
  fun root => (visitor.walk root start).1

/-- A failure of a recipe's validation. -/
structure ValidationFailure where
  recipe : String
  property : String
  message : String
deriving DecidableEq, Repr

/-- The failure in words. -/
def ValidationFailure.display (failure : ValidationFailure) : String :=
  failure.recipe ++ "." ++ failure.property ++ ": " ++ failure.message

end Codemod.Recipe

namespace Codemod

/-- A recipe: its pass, if it has one of its own, and the recipes that run behind it. -/
structure Recipe where
  name : String
  description : String := ""
  options : List Recipe.RecipeOption := []
  /-- Failures beyond those of the options. -/
  customFailures : List Recipe.ValidationFailure := []
  pass? : Option Recipe.Pass := none
  children : List Recipe := []

namespace Recipe

open Codemod.Tree

instance : Inhabited Recipe := ⟨{ name := "" }⟩

/-- A list of recipes under a name. -/
def composite (name description : String) (children : List Recipe) : Recipe :=
  { name, description, children }

/-- The failures of a recipe's own options, in their order, and those beyond them. -/
def ownFailures (recipe : Recipe) : List ValidationFailure :=
  recipe.options.filterMap
      (fun o => o.check.map fun fault => ⟨recipe.name, o.name, fault.message⟩)
    ++ recipe.customFailures

mutual

/-- The failures of a recipe and of those below it. -/
def validate : Recipe → List ValidationFailure
  | r@⟨_, _, _, _, _, children⟩ => r.ownFailures ++ validateAll children

/-- The failures of some recipes and of those below them. -/
def validateAll : List Recipe → List ValidationFailure
  | [] => []
  | r :: rs => r.validate ++ validateAll rs

end

mutual

/-- A recipe and those below it, in the order in which they run. -/
def preorder : Recipe → List Recipe
  | r@⟨_, _, _, _, _, children⟩ => r :: preorderAll children

/-- Some recipes and those below them, in the order in which they run. -/
def preorderAll : List Recipe → List Recipe
  | [] => []
  | r :: rs => r.preorder ++ preorderAll rs

end

/-- A tree, and the names of the recipes whose pass replaced it, in the order in which they
ran. -/
structure Applied where
  root : Node
  changedBy : List String := []

/-- The tree behind a recipe's own pass. -/
def applyOwn (recipe : Recipe) (state : Applied) : Applied :=
  match recipe.pass?.bind fun pass => pass state.root with
  | some root => ⟨root, state.changedBy ++ [recipe.name]⟩
  | none => state

mutual

/-- The tree behind a recipe's own pass and then its children. -/
def apply : Recipe → Applied → Applied
  | r@⟨_, _, _, _, _, children⟩, state => applyAll children (r.applyOwn state)

/-- The tree behind some recipes one after another. -/
def applyAll : List Recipe → Applied → Applied
  | [], state => state
  | r :: rs, state => applyAll rs (r.apply state)

end

end Recipe

end Codemod
