import Codemod.Java.Access
import Codemod.Java.Hooks
import Codemod.Pattern.Method
import Codemod.Recipe.Basic
import Codemod.Text.Lines

/-!
The recipe that renames the methods which a pattern selects, at their declarations and at every
call that means them. A static import of the one name is renamed with the calls that need it;
where other calls still need the old name, an import of the new one is added behind it.
-/

namespace Codemod.Recipes.MethodName

open Codemod.Tree

/-- What a walk has seen of static imports in use. -/
structure Seen where
  /-- The classes and old names of calls that were renamed through a static import. -/
  renamed : List (String × String) := []
  /-- The names that are still called through static imports. -/
  kept : List String := []

/-- The methods to rename, and their new name. -/
structure Renaming where
  pattern : Pattern.MethodPattern
  newName : String

namespace Renaming

/-- The method is selected and does not have the new name yet. -/
def applies (r : Renaming) (m : Java.Signature) : Bool :=
  m.name != r.newName && r.pattern.selects m

/-- The declaration or call under the new name. -/
def rename? (r : Renaming) (n : Node) : Option Node :=
  (Java.withMethodName? n r.newName).map fun renamed =>
    { renamed with type? := n.type?.map fun info => info.renamed r.newName }

/-- What is made of a declaration. -/
def declaration (r : Renaming) (n : Node) : Option Node :=
  match n.type? with
  | some (.method m) => if r.applies m then r.rename? n else none
  | _ => none

/-- What is made of a call, and what is seen there. -/
def call (r : Renaming) (n : Node) (seen : Seen) : Option Node × Seen :=
  match n.type? with
  | some (.invocation m viaStaticImport) =>
      if r.applies m then
        match r.rename? n with
        | some renamed =>
            if viaStaticImport && (Java.receiver? n).isNone then
              (some renamed, { seen with renamed := (m.declaringType, m.name) :: seen.renamed })
            else (some renamed, seen)
        | none => (none, seen)
      else if viaStaticImport then (none, { seen with kept := m.name :: seen.kept })
      else (none, seen)
  | _ => (none, seen)

/-- A call was renamed that this import may have brought in. -/
def renamedHere (r : Renaming) (seen : Seen) (owner member : String) : Bool :=
  seen.renamed.any fun call =>
    call.2 == member && (call.1 == owner || r.pattern.selectsOwner owner)

/-- The pattern selects the import itself, by its owner and its member. -/
def selectsImport (r : Renaming) (owner member : String) : Bool :=
  r.pattern.selectsOwner owner && r.pattern.selectsName member

/-- What stands in place of an import of one static member; none if it stays. -/
def replaceImport (r : Renaming) (seen : Seen) (existing : List (String × String))
    (clause : Node) (owner member : String) : Option (List Element) :=
  let stillUsed := seen.kept.contains member
  let renamed := r.renamedHere seen owner member
  if renamed && stillUsed then
    if existing.contains (owner, r.newName) then none
    else
      (Java.withImportMember? clause r.newName).map fun added =>
        [.node clause, .node { added with lead := "\n" ++ Text.indent clause.lead }]
  else if renamed || (!stillUsed && r.selectsImport owner member) then
    (Java.withImportMember? clause r.newName).map fun renamed => [.node renamed]
  else none

/-- What stands in place of a child of a unit; none if it stays. -/
def replaceChild (r : Renaming) (seen : Seen) (existing : List (String × String)) :
    Element → Option (List Element)
  | .token _ => none
  | .node n =>
      match Java.staticImportParts? n with
      | some (owner, member) =>
          if member == "*" then none else r.replaceImport seen existing n owner member
      | none => none

/-- What is made of a unit whose calls have been visited. -/
def imports (r : Renaming) (unit : Node) (seen : Seen) : Option Node :=
  let existing := unit.childNodes.filterMap Java.staticImportParts?
  let edit := r.replaceChild seen existing
  if unit.children.any fun e => (edit e).isSome then
    some { unit with children := unit.children.flatMap fun e => (edit e).getD [e] }
  else none

/-- The visitor that renames. -/
def visitor (r : Renaming) : Visitor Seen :=
  Java.Hooks.visitor
    { leave := fun kind n _ seen =>
        match kind with
        | .compilationUnit => (r.imports n seen, seen)
        | .methodDeclaration => (r.declaration n, seen)
        | .methodInvocation => r.call n seen
        | _ => (none, seen) }

end Renaming

/-- The renaming that two options ask for. -/
def renaming? (pattern newName : Option String) : Option Renaming := do
  let pattern ← (Pattern.MethodPattern.parse (← pattern)).toOption
  some { pattern, newName := ← newName }

end MethodName

/-- Renames the methods that a pattern selects. Without a pattern or a name it does nothing,
and validation says why. -/
def changeMethodName (pattern newName : Option String) : Recipe where
  name := "ChangeMethodName"
  description := "Rename a method at its declaration and all matching call sites."
  options :=
    [ ⟨"method_pattern", true, pattern.map .text, .methodPattern⟩,
      ⟨"new_method_name", true, newName.map .text, .javaIdentifier⟩ ]
  pass? := (MethodName.renaming? pattern newName).map fun r => Recipe.passOf r.visitor {}

end Codemod.Recipes
