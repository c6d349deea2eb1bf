import Codemod.Tree.Walk

/-!
Visitors of YAML trees, with one step for each kind of node.
-/

namespace Codemod.Yaml

open Codemod.Tree

/-- A step at a node of a walk: its replacement, if any, and the state. -/
abbrev Step (σ : Type) :=
  Node → Cursor → σ → Option Node × σ

/-- What is done before and after the children of a node, by its kind. -/
structure Hooks (σ : Type) where
  enter : Step σ := fun _ _ s => (none, s)
  document : Step σ := fun _ _ s => (none, s)
  mapping : Step σ := fun _ _ s => (none, s)
  entry : Step σ := fun _ _ s => (none, s)
  scalar : Step σ := fun _ _ s => (none, s)

/-- The step behind the children of a node. -/
def Hooks.leave {σ : Type} (hooks : Hooks σ) : Step σ := fun n cursor s =>
  match n.kind with
  | .yaml .document => hooks.document n cursor s
  | .yaml .mapping => hooks.mapping n cursor s
  | .yaml .entry => hooks.entry n cursor s
  | .yaml .scalar => hooks.scalar n cursor s
  | .java _ => (none, s)

/-- The visitor of documents that does these steps. -/
def Hooks.visitor {σ : Type} (hooks : Hooks σ) : Visitor σ where
  accepts := fun root => root.kind == .yaml .document
  enter := hooks.enter
  leave := hooks.leave

end Codemod.Yaml
