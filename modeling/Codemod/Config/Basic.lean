import Codemod.Engine
import Codemod.Recipes.Deletion
import Codemod.Recipes.Folding
import Codemod.Recipes.MethodName
import Codemod.Recipes.Semicolons

/-!
Recipe configs: a declared list of recipes with the settings of their run, and what can be
wrong with one.
-/

namespace Codemod.Config

open Recipe

/-- A recipe as a config declares it. Options that it leaves out are reported by the recipe's
own validation. -/
inductive Definition where
  | removeExtraSemicolons
  | changeMethodName (pattern newName : Option String)
  | deleteProperty (key : Option String) (expected : Option OptionValue) (coalesce : Option Bool)
  | coalesceProperties
deriving DecidableEq, Repr

/-- The recipe that is declared. -/
def Definition.recipe : Definition → Recipe
  | removeExtraSemicolons => Recipes.removeExtraSemicolons
  | changeMethodName pattern newName => Recipes.changeMethodName pattern newName
  | deleteProperty key expected coalesce => Recipes.deleteProperty key expected coalesce
  | coalesceProperties => Recipes.coalesceProperties

/-- What a config says about itself and its run. -/
structure Metadata where
  name : String := ""
  description? : Option String := none
  maxCycles? : Option Nat := none
  parallel? : Option Bool := none
deriving DecidableEq, Repr

end Codemod.Config

namespace Codemod

/-- A declared list of recipes. -/
structure Config where
  metadata : Config.Metadata := {}
  definitions : List Config.Definition := []
deriving DecidableEq, Repr

namespace Config

/-- The recipes in the order of their declarations. -/
def recipes (config : Config) : List Recipe :=
  config.definitions.map Definition.recipe

/-- The settings of the run. -/
def settings (config : Config) : Engine.Settings :=
  let settings :=
    match config.metadata.maxCycles? with
    | some n => Engine.Settings.withMaxCycles {} n
    | none => {}
  { settings with parallel := config.metadata.parallel?.getD settings.parallel }

/-- What can be wrong with a config as a whole. -/
inductive Issue where
  | emptyRecipeList
  | zeroMaxCycles
deriving DecidableEq, Repr

/-- The words for an issue. -/
def Issue.message : Issue → String
  | emptyRecipeList => "recipe config contains no recipes"
  | zeroMaxCycles => "meta.max_cycles must be at least 1"

/-- What is wrong with a config. -/
def issues (config : Config) : List Issue :=
  (if config.definitions.isEmpty then [.emptyRecipeList] else [])
    ++ if config.metadata.maxCycles? = some 0 then [.zeroMaxCycles] else []

/-- Why there is no config. -/
inductive Problem where
  /-- There is no such file, or its bytes are no text. -/
  | unreadable
  /-- The text is no document, or it does not describe a config. -/
  | malformed
  | invalid (issues : List Issue)
deriving DecidableEq, Repr

/-- The words for all issues of a problem, each on a line. -/
def Problem.issueText : Problem → String
  | invalid issues => String.intercalate "\n" (issues.map Issue.message)
  | unreadable | malformed => ""

/-- A config that was not loaded, with its file if it came from one. -/
structure LoadError where
  file? : Option String
  problem : Problem
deriving DecidableEq, Repr

/-- The error in words. -/
def LoadError.display (e : LoadError) : String :=
  "recipe config" ++ (e.file?.map (" " ++ ·)).getD ""
    ++ match e.problem with
      | .unreadable => " cannot be read"
      | .malformed => " is not valid TOML"
      | .invalid _ => " is invalid: " ++ e.problem.issueText

end Config

end Codemod
