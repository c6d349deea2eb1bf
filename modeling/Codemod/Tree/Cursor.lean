import Codemod.Tree.Basic

/-!
The place of a node under visit: its ancestors as they were when they were entered, and
where the node stands in each.
-/

namespace Codemod.Tree

/-- An ancestor, and the index of the child through which the place is reached. -/
structure Frame where
  node : Node
  index : Nat

/-- The ancestors of a place, the nearest first. -/
abbrev Cursor := List Frame

namespace Cursor

/-- The number of ancestors. -/
def depth (cursor : Cursor) : Nat :=
  cursor.length

/-- There is no ancestor. -/
def isRoot (cursor : Cursor) : Bool :=
  cursor.isEmpty

/-- The nearest ancestor. -/
def parent? (cursor : Cursor) : Option Node :=
  cursor.head?.map Frame.node

/-- The outermost ancestor. -/
def root? (cursor : Cursor) : Option Node :=
  cursor.getLast?.map Frame.node

/-- The ancestors from the nearest outward. -/
def ancestors (cursor : Cursor) : List Node :=
  cursor.map Frame.node

/-- The nearest ancestor of a kind. -/
def firstEnclosing? (cursor : Cursor) (kind : Kind) : Option Node :=
  cursor.ancestors.find? fun n => n.kind == kind

/-- The index of the place in its parent. -/
def indexInParent? (cursor : Cursor) : Option Nat :=
  cursor.head?.map Frame.index

/-- The children of the parent. -/
def siblings (cursor : Cursor) : List Element :=
  match cursor with
  | [] => []
  | frame :: _ => frame.node.children

/-- The nodes behind the place in its parent, in order. -/
def nextSiblings (cursor : Cursor) : List Node :=
  match cursor with
  | [] => []
  | frame :: _ => (frame.node.children.drop (frame.index + 1)).filterMap Element.node?

/-- The nodes in front of the place in its parent, the nearest first. -/
def previousSiblings (cursor : Cursor) : List Node :=
  match cursor with
  | [] => []
  | frame :: _ => ((frame.node.children.take frame.index).reverse).filterMap Element.node?

/-- The child indices that lead from the root to the place. -/
def path (cursor : Cursor) : List Nat :=
  (cursor.map Frame.index).reverse

end Cursor

end Codemod.Tree
