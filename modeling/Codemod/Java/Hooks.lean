import Codemod.Tree.Walk

/-!
Visitors of Java trees, with a step for the kinds of node that recipes act on.
-/

namespace Codemod.Java

open Codemod.Tree

/-- Visitors are shown the nodes of this kind after their children. -/
def Kind.isVisited : Kind → Bool
  | .compilationUnit | .importClause | .classDeclaration | .classBody | .enumBody
  | .enumConstants | .methodDeclaration | .initializerBlock | .variableDeclaration | .block
  | .empty | .tryStatement | .tryResources | .resource | .catchClause | .methodInvocation
  | .newClass => true
  | _ => false

/-- What is done before and after the children of a node; after them by its kind. -/
structure Hooks (σ : Type) where
  enter : Node → Cursor → σ → Option Node × σ := fun _ _ s => (none, s)
  leave : Kind → Node → Cursor → σ → Option Node × σ := fun _ _ _ s => (none, s)

/-- The visitor of compilation units that does these steps. -/
def Hooks.visitor {σ : Type} (hooks : Hooks σ) : Visitor σ where
  accepts := fun root => root.kind == .java .compilationUnit
  enter := hooks.enter
  leave := fun n cursor s =>
    match n.kind with
    | .java kind => if kind.isVisited then hooks.leave kind n cursor s else (none, s)
    | .yaml _ => (none, s)

end Codemod.Java
