import Codemod.Recipe.Held
import Codemod.Report.Diff
import Codemod.Report.Json
import Codemod.Source.Basic

/-!
Running recipes over files until nothing changes. Every valid recipe is applied to every file
in turn; a file is done with the first pass that leaves the very tree it began with. As many passes
as the settings allow may change a file, and one more confirms the result; a file that still changes
then fails. Files are independent of each other.
-/

namespace Codemod.Engine

open Codemod.Tree Source

/-- The settings of a run. -/
structure Settings where
  /-- The number of passes that may change a file. -/
  maxCycles : Nat := 3
  /-- Files are treated at the same time, which changes no answer. -/
  parallel : Bool := true
  one_le_maxCycles : 1 ≤ maxCycles := by decide

/-- The settings with another number of passes, at least one. -/
def Settings.withMaxCycles (settings : Settings) (n : Nat) : Settings :=
  { settings with maxCycles := max n 1, one_le_maxCycles := by omega }

/-- Why a file has no result. -/
inductive RunError where
  | parse (failure : ParseFailure)
  | nonConvergence (path recipe : String) (cycles : Nat)
  | printConsistency (path : String)
deriving DecidableEq, Repr

namespace RunError

/-- The file. -/
def path : RunError → String
  | parse failure => failure.path
  | nonConvergence path _ _ | printConsistency path => path

/-- The category of the error in reports. -/
def category : RunError → String
  | parse _ => "parse"
  | nonConvergence .. => "non-convergence"
  | printConsistency _ => "print-consistency"

/-- The error in words. -/
def message : RunError → String
  | parse failure => failure.display
  | nonConvergence path recipe cycles =>
      "recipe '" ++ recipe ++ "' was still changing " ++ path ++ " after " ++ toString cycles
        ++ " cycles"
  | printConsistency path =>
      path ++ " does not print back to its source text before any recipe ran"

/-- The failure of the file in words. -/
def display (e : RunError) : String :=
  "Failed on " ++ e.path ++ ": " ++ e.message

end RunError

/-- What a run made of a file. -/
structure Change where
  path : String
  before : String
  after : String
  changed : Bool
  /-- The recipes that changed the file, in the order in which they first did. -/
  recipes : List String
  /-- The number of passes, the one that confirmed the result included. -/
  cycles : Nat
deriving DecidableEq, Repr

namespace Change

/-- The unified difference of the file, empty if it is unchanged. -/
def diff (c : Change) : String :=
  if c.changed then Report.unifiedDiff ("a/" ++ c.path) ("b/" ++ c.path) c.before c.after else ""

/-- The change in words. -/
def display (c : Change) : String :=
  if c.changed then
    "Changed " ++ c.path ++ " (" ++ String.intercalate ", " c.recipes ++ ")"
  else "Unchanged " ++ c.path

end Change

/-- What a run made of all files, in the order of the files. -/
structure RunResult where
  /-- The failures of recipes that were refused. -/
  validation : List Recipe.ValidationFailure := []
  changes : List Change := []
  failures : List RunError := []
deriving DecidableEq, Repr

namespace RunResult

/-- No recipe was refused. -/
def isValid (r : RunResult) : Bool :=
  r.validation.isEmpty

/-- The changes of files whose text is another one. -/
def changed (r : RunResult) : List Change :=
  r.changes.filter Change.changed

/-- The first change of a file. -/
def changeFor? (r : RunResult) (path : String) : Option Change :=
  r.changes.find? fun c => samePath c.path path

/-- The first failure of a file. -/
def failureFor? (r : RunResult) (path : String) : Option RunError :=
  r.failures.find? fun e => samePath e.path path

/-- The report of a refused option. -/
def validationValue (f : Recipe.ValidationFailure) : Report.Value :=
  .record [("recipe", .text f.recipe), ("property", .text f.property), ("message", .text f.message)]

/-- The report of a change. -/
def changeValue (c : Change) : Report.Value :=
  .record
    [ ("path", .text c.path), ("before", .text c.before), ("after", .text c.after),
      ("changed", .flag c.changed), ("recipes", .list (c.recipes.map .text)),
      ("cycles", .number c.cycles) ]

/-- The report of a failure. -/
def failureValue (e : RunError) : Report.Value :=
  .record [("path", .text e.path), ("kind", .text e.category), ("message", .text e.message)]

/-- The report of a run as JSON text. -/
def toJson (r : RunResult) : String :=
  Report.Value.render 0 <| .record
    [ ("validation", .list (r.validation.map validationValue)),
      ("changes", .list (r.changes.map changeValue)),
      ("failures", .list (r.failures.map failureValue)) ]

end RunResult

/-- The names with those of a pass behind them that are new, each once. -/
def addNew (names : List String) : List String → List String
  | [] => names
  | name :: rest => addNew (if names.contains name then names else names ++ [name]) rest

/-- How the passes over a tree ended. -/
inductive Outcome where
  /-- The tree that a pass left as it is, the recipes that changed it in those before, and the number
  of passes. -/
  | converged (root : Node) (recipes : List String) (cycles : Nat)
  /-- The first recipe that changed the tree in the last pass that was allowed. -/
  | diverged (recipe : String)

section
variable {μ : Type}

/-- Passes over a tree of which `left` may still change it, after `done` passes in which some
recipes did. -/
def passes (recipes : List (Recipe.Rewrite μ)) (done : Nat) (names : List String) :
    Nat → Recipe.Held → μ → Outcome
  | left, before, memory =>
      let pass := Recipe.Rewrite.applyAll recipes ⟨before, [], memory⟩
      if pass.held.place = before.place then .converged pass.held.root names (done + 1)
      else
        match left with
        | 0 => .diverged (pass.changedBy.head?.getD "")
        | left + 1 =>
            passes recipes (done + 1) (addNew names pass.changedBy) left pass.held pass.memory

/-- What recipes make of a file whose tree is held at a place. A file whose tree does not print its
text is left alone. -/
def runHeld (settings : Settings) (recipes : List (Recipe.Rewrite μ)) (file : SourceFile)
    (place : Nat) (memory : μ) : Except RunError Change :=
  if file.root.print != file.text then .error (.printConsistency file.path)
  else
    match passes recipes 0 [] settings.maxCycles ⟨place, file.root⟩ memory with
    | .converged root names cycles =>
        .ok
          { path := file.path
            before := file.text
            after := root.print
            changed := root.print != file.text
            recipes := names
            cycles }
    | .diverged recipe => .error (.nonConvergence file.path recipe settings.maxCycles)

end

/-- What recipes make of a file. Its tree is the first in memory. -/
def runFile (settings : Settings) (recipes : List Recipe) (file : SourceFile) :
    Except RunError Change :=
  runHeld settings (Recipe.rewriteAll recipes) file 0 1

/-- What recipes make of a file that may have failed to parse. -/
def runSource (settings : Settings) (recipes : List Recipe) :
    Except ParseFailure SourceFile → Except RunError Change
  | .ok file => runFile settings recipes file
  | .error failure => .error (.parse failure)

/-- The errors of those that have one. -/
def failuresOf {ε α : Type} (results : List (Except ε α)) : List ε :=
  results.filterMap fun
    | .error e => some e
    | .ok _ => none

/-- How some files are treated at the same time. -/
abbrev Parallel :=
  (Except ParseFailure SourceFile → Except RunError Change) →
    List (Except ParseFailure SourceFile) → List (Except RunError Change)

/-- What the valid ones of some recipes make of files. The others are refused. Files are treated at the
same time where the settings say so, and one behind another otherwise. -/
def run (settings : Settings) (recipes : List Recipe)
    (sources : List (Except ParseFailure SourceFile)) (inParallel : Parallel := List.map) :
    RunResult :=
  let runnable := recipes.filter fun r => r.validate.isEmpty
  let outcomes :=
    if settings.parallel then inParallel (runSource settings runnable) sources
    else sources.map (runSource settings runnable)
  { validation := recipes.flatMap Recipe.validate
    changes := successes outcomes
    failures := failuresOf outcomes }

end Codemod.Engine
