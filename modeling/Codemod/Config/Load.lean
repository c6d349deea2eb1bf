import Codemod.Config.Basic
import Codemod.Source.FileTree
import Codemod.Toml.Document

/-!
Loading recipe configs from TOML. Keys that mean nothing are passed over; a value of the wrong
kind makes the text malformed, and so does a recipe without a known type. A record may also be
given as the list of its values, in the order of its fields.
-/

namespace Codemod.Config

open Toml Recipe

/-- The fields of a record: the entries of a table, or values in the order of the names. -/
def fields? (names : List String) : Value → Option Table
  | .table _ entries => some entries
  | .array items => some (names.zip items)
  | _ => none

/-- The value of a field that may be missing but not be of another kind. -/
def field? {α : Type} (read : Value → Option α) (table : Table) (name : String) :
    Option (Option α) :=
  match table.lookup name with
  | none => some none
  | some value => (read value).map some

/-- A text. -/
def text? : Value → Option String
  | .text s => some s
  | _ => none

/-- A truth value. -/
def flag? : Value → Option Bool
  | .flag b => some b
  | _ => none

/-- A natural number. -/
def number? : Value → Option Nat
  | .integer (.ofNat n) => some n
  | _ => none

/-- The value of an option. -/
def optionValue? : Value → Option OptionValue
  | .flag b => some (.flag b)
  | .integer n => some (.number n)
  | .text s => some (.text s)
  | _ => none

/-- What a config says about itself. -/
def metadata? (value : Value) : Option Metadata := do
  let fields ← fields? ["name", "description", "max_cycles", "parallel"] value
  some
    { name := (← field? text? fields "name").getD ""
      description? := ← field? text? fields "description"
      maxCycles? := ← field? number? fields "max_cycles"
      parallel? := ← field? flag? fields "parallel" }

/-- The fields that a recipe of this type may have. -/
def fieldNames? : String → Option (List String)
  | "remove-extra-semicolons" | "coalesce-properties" => some []
  | "change-method-name" => some ["method_pattern", "new_method_name"]
  | "delete-property" => some ["property_key", "expected_value", "coalesce"]
  | _ => none

/-- The recipe of a type with its fields. -/
def definitionOf? (type : String) (fields : Table) : Option Definition :=
  match type with
  | "remove-extra-semicolons" => some .removeExtraSemicolons
  | "coalesce-properties" => some .coalesceProperties
  | "change-method-name" => do
      some (.changeMethodName (← field? text? fields "method_pattern")
        (← field? text? fields "new_method_name"))
  | "delete-property" => do
      some (.deleteProperty (← field? text? fields "property_key")
        (← field? optionValue? fields "expected_value") (← field? flag? fields "coalesce"))
  | _ => none

/-- A declared recipe: a table with a type, or a list of the type and no more values than
there are fields. -/
def definition? : Value → Option Definition
  | .table _ entries => do definitionOf? (← text? (← entries.lookup "type")) entries
  | .array (type :: items) => do
      let type ← text? type
      let names ← fieldNames? type
      guard (items.length ≤ names.length)
      definitionOf? type (names.zip items)
  | _ => none

/-- The declared recipes. -/
def definitions? : Value → Option (List Definition)
  | .array items => items.mapM definition?
  | .tables items => items.mapM fun entries => definition? (.table .header entries)
  | _ => none

/-- The config that a document describes. -/
def ofTable? (root : Table) : Option Config := do
  some
    { metadata := (← field? metadata? root "meta").getD {}
      definitions := (← field? definitions? root "recipes").getD [] }

/-- The config in a text. -/
def parse (text : String) : Except Problem Config :=
  match (Toml.parse? text).bind ofTable? with
  | none => .error .malformed
  | some config =>
      match config.issues with
      | [] => .ok config
      | found => .error (.invalid found)

/-- The config in a text that comes from no file. -/
def load (text : String) : Except LoadError Config :=
  (parse text).mapError fun problem => ⟨none, problem⟩

/-- The config in a file of a tree. -/
def loadFile (tree : Source.FileTree) (path : String) : Except LoadError Config :=
  let loaded : Except Problem Config :=
    match (tree.resolve? path).bind tree.text? with
    | none => .error .unreadable
    | some text => parse text
  loaded.mapError fun problem => ⟨some (Source.shownPath path), problem⟩

end Codemod.Config
