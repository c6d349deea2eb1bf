import Codemod.Recipe.Basic

/-!
Recipes over trees in memory. Whether a recipe changed a tree is a matter of memory: it did if it
hands back another tree than the very one that it was given, even an equal one. It may have kept a
tree that stood there before and hand that back.
-/

namespace Codemod.Recipe

open Codemod.Tree

/-- A tree in memory. Trees are the same one if they are held at the same place. -/
structure Held where
  place : Nat
  root : Node

/-- A recipe over trees in memory: what its pass hands back for a tree, if it has one of its own, and
the recipes that run behind it. -/
structure Rewrite (μ : Type) where
  name : String
  pass? : Option (Held → μ → Held × μ) := none
  children : List (Rewrite μ) := []

namespace Rewrite

variable {μ : Type}

/-- A tree and the memory, with the names of the recipes whose pass handed back another tree, in the
order in which they ran. -/
structure State (μ : Type) where
  held : Held
  changedBy : List String
  memory : μ

/-- The state behind a recipe's own pass. -/
def applyOwn (recipe : Rewrite μ) (state : State μ) : State μ :=
  match recipe.pass? with
  | none => state
  | some pass =>
      let (visited, memory) := pass state.held state.memory
      if visited.place = state.held.place then { state with memory }
      else ⟨visited, state.changedBy ++ [recipe.name], memory⟩

mutual

/-- The state behind a recipe's own pass and then its children. -/
def apply : Rewrite μ → State μ → State μ
  | r@⟨_, _, children⟩, state => applyAll children (r.applyOwn state)

/-- The state behind some recipes one after another. -/
def applyAll : List (Rewrite μ) → State μ → State μ
  | [], state => state
  | r :: rs, state => applyAll rs (r.apply state)

end

end Rewrite

/-- A pass over trees in memory. Where it makes a new tree, that is held at the next free place. -/
def Pass.hold (pass : Pass) (held : Held) (free : Nat) : Held × Nat :=
  match pass held.root with
  | none => (held, free)
  | some root => (⟨free, root⟩, free + 1)

mutual

/-- The recipe over trees in memory, of which the next free place is all that it needs. -/
def rewrite : Recipe → Rewrite Nat
  | ⟨name, _, _, _, pass?, children⟩ => ⟨name, pass?.map Pass.hold, rewriteAll children⟩

/-- Some recipes over trees in memory. -/
def rewriteAll : List Recipe → List (Rewrite Nat)
  | [] => []
  | r :: rs => r.rewrite :: rewriteAll rs

end

end Codemod.Recipe
