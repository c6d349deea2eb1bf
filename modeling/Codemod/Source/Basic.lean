import Codemod.Java.Attribution
import Codemod.Java.Unit
import Codemod.Text.Split
import Codemod.Tree.Printer
import Codemod.Yaml.Document

/-!
Source files: a path, the text at it, and its tree. Two paths are the same if they have the same
components: an empty one and a dot count only where a path begins with them. A path that is shown keeps
its empty components and dots, except those at its ends.
-/

namespace Codemod.Source

open Codemod.Tree

/-- The component leads nowhere: it is empty or a dot. -/
def leadsNowhere (part : List Char) : Bool :=
  part = [] || part = ['.']

/-- The components of a path, the slash of an absolute one and a leading dot among them. -/
def components (path : String) : List (List Char) :=
  let parts := Text.splitOn '/' path.toList
  let named := parts.filter fun part => !leadsNowhere part
  match parts with
  | [] :: _ :: _ => ['/'] :: named
  | ['.'] :: _ => ['.'] :: named
  | _ => named

/-- The paths have the same components. -/
def samePath (a b : String) : Bool :=
  components a == components b

/-- The path without the components at its ends that lead nowhere. An absolute path stays as
it is. -/
def shownPath (path : String) : String :=
  if path.startsWith "/" then path
  else
    let parts := (Text.splitOn '/' path.toList).dropWhile leadsNowhere
    String.ofList (Text.join '/' (parts.reverse.dropWhile leadsNowhere).reverse)

/-- The components that are no names. -/
def unnamed : List (List Char) :=
  [['/'], ['.'], ['.', '.']]

/-- What stands behind the last dot of the last component, unless the dot begins it. -/
def extension? (path : String) : Option (List Char) :=
  match (components path).getLast? with
  | none => none
  | some name =>
      if unnamed.contains name then none
      else
        match Text.splitLast '.' name with
        | some ([], _) | none => none
        | some (_, extension) => some extension

/-- A file with its text and its tree. -/
structure SourceFile where
  path : String
  text : String
  root : Node

/-- The file of a tree that was built and not parsed: its text is what the tree prints. -/
def SourceFile.ofTree (path : String) (root : Node) : SourceFile :=
  { path, text := root.print, root }

/-- A file that has no tree. The byte offset of the failure is there when it is known. -/
structure ParseFailure where
  path : String
  message : String
  offset? : Option Nat
deriving DecidableEq, Repr

/-- The failure in words. -/
def ParseFailure.display (failure : ParseFailure) : String :=
  "failed to parse " ++ failure.path ++ ": " ++ failure.message

/-- The languages that are parsed. -/
inductive Language where
  | java
  | yaml
deriving DecidableEq, Repr

/-- The extensions of a language's files. -/
def Language.extensions : Language → List String
  | java => ["java"]
  | yaml => ["yml", "yaml"]

/-- The file at a path is in the language. -/
def Language.accepts (language : Language) (path : String) : Bool :=
  (extension? path).any fun e => language.extensions.contains (String.ofList e)

/-- The unit of a Java file, without attribution. -/
def parseJava (path text : String) : Except ParseFailure Node :=
  (Java.parseUnit text).mapError fun e => ⟨path, e.message, some e.offset⟩

/-- A YAML file. -/
def parseYaml (path text : String) : Except ParseFailure SourceFile :=
  match Yaml.parseDocument text with
  | .ok root => .ok { path, text, root }
  | .error e => .error ⟨path, e.message, some e.offset⟩

/-- The values of those that have one. -/
def successes {ε α : Type} (results : List (Except ε α)) : List α :=
  results.filterMap Except.toOption

/-- Java files as one source set: those that parse are attributed together. -/
def parseJavaSet (inputs : List (String × String)) : List (Except ParseFailure SourceFile) :=
  let units := inputs.map fun (path, text) => (path, text, parseJava path text)
  let symbols := Java.SymbolTable.ofUnits (successes (units.map fun u => u.2.2))
  units.map fun (path, text, parsed) =>
    parsed.map fun unit => { path, text, root := Java.attributeUnit symbols unit }

/-- Files of one language as one source set. -/
def Language.parseAll : Language → List (String × String) →
    List (Except ParseFailure SourceFile)
  | java, inputs => parseJavaSet inputs
  | yaml, inputs => inputs.map fun (path, text) => parseYaml path text

/-- A file by itself. -/
def Language.parse : Language → String → String → Except ParseFailure SourceFile
  | java, path, text =>
      (parseJava path text).map fun unit =>
        { path, text, root := Java.attributeUnit (.ofUnits [unit]) unit }
  | yaml, path, text => parseYaml path text

end Codemod.Source
