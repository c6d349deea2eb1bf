import Codemod.Tree.Cursor

/-!
Walking a tree and replacing nodes on the way. Each node is seen twice, before and after its
children, and each time another node may come in its place. A visit replaces a node if it leaves
another than the very one that it began with, even an equal one. Who has kept that node may hand it
back for what has come in its place since, and then nothing is replaced. A walk in which nothing is
replaced gives back no tree: the old one stands.
-/

namespace Codemod.Tree

/-- What is handed back for a node that is shown. A walk compares what a visit leaves with the node
that the visit began with, and with no other. -/
inductive Answer where
  /-- The very node that is shown. -/
  | shown
  /-- The very node that the visit began with. -/
  | start
  /-- Another node than that, even if it is equal to it. -/
  | other (n : Node)

namespace Answer

/-- The node that comes in place of the one that is shown, if that is neither of the two. -/
def new? : Answer → Option Node
  | .shown | .start => none
  | .other n => some n

/-- What has come in place of the node that a visit began with, behind an answer. There is none if
that very node stands there. -/
def put : Answer → Option Node → Option Node
  | .shown, held => held
  | .start, _ => none
  | .other n, _ => some n

/-- The node that the visit began with is handed back. -/
def isStart : Answer → Bool
  | .start => true
  | .shown | .other _ => false

/-- An answer that puts a new node in place of the one that is shown, or leaves that. -/
def ofNew : Option Node → Answer
  | none => .shown
  | some n => .other n

@[simp] theorem new_shown : shown.new? = none := rfl

@[simp] theorem new_start : start.new? = none := rfl

@[simp] theorem new_other (n : Node) : (other n).new? = some n := rfl

@[simp] theorem put_shown (held : Option Node) : shown.put held = held := rfl

@[simp] theorem put_start (held : Option Node) : start.put held = none := rfl

@[simp] theorem put_other (n : Node) (held : Option Node) : (other n).put held = some n := rfl

@[simp] theorem new_ofNew (o : Option Node) : (ofNew o).new? = o := by
  cases o <;> rfl

@[simp] theorem put_ofNew (o held : Option Node) : (ofNew o).put held = (o <|> held) := by
  cases o <;> rfl

end Answer

/-- What is done at each node of a walk, with a state that is passed along. -/
structure Rewriter (σ : Type) where
  /-- The walk goes into trees with this root at all. -/
  accepts : Node → Bool := fun _ => true
  /-- Sees a node before its children are visited. -/
  enter : Node → Cursor → σ → Answer × σ := fun _ _ s => (.shown, s)
  /-- Sees a node after its children were visited. -/
  leave : Node → Cursor → σ → Answer × σ := fun _ _ s => (.shown, s)

/-- The list with replacements in front and behind; none if neither part has any. -/
def replaceChild (child : Element) (first : Option Node) (children : List Element)
    (others : Option (List Element)) : Option (List Element) :=
  match first, others with
  | none, none => none
  | some n, others => some (.node n :: others.getD children)
  | none, some others => some (child :: others)

/-- Visits the child nodes among the children of `parent` from `index` on. -/
def visitChildren {σ : Type} (visit : Cursor → Node → σ → Option (Option Node × σ))
    (parent : Node) (cursor : Cursor) :
    Nat → List Element → σ → Option (Option (List Element) × σ)
  | _, [], s => some (none, s)
  | index, .token t :: rest, s => do
      let (others, s) ← visitChildren visit parent cursor (index + 1) rest s
      some (others.map (.token t :: ·), s)
  | index, .node n :: rest, s => do
      let (first, s) ← visit (⟨parent, index⟩ :: cursor) n s
      let (others, s) ← visitChildren visit parent cursor (index + 1) rest s
      some (replaceChild (.node n) first rest others, s)

namespace Rewriter

variable {σ : Type}

/-- Visits a node and what is below it, at most `limit` levels deep; a tree with more levels
has no answer. The answer is the replacement of the node, if there is one, and the state. -/
def visit (rewriter : Rewriter σ) : Nat → Cursor → Node → σ → Option (Option Node × σ)
  | 0, _, _, _ => none
  | limit + 1, cursor, node, s => do
      let (first, s) := rewriter.enter node cursor s
      let entered := first.new?.getD node
      let (children, s) ← visitChildren (rewriter.visit limit) entered cursor 0 entered.children s
      -- The node is put together anew only if a child was replaced.
      let held := (children.map fun children => { entered with children }) <|> first.new?
      let (last, s) := rewriter.leave (held.getD node) cursor s
      some (last.put held, s)

/-- A visit enters the node, visits the child nodes of what it then is, and leaves it. -/
theorem visit_succ {rewriter : Rewriter σ} {limit : Nat} {cursor : Cursor} {n : Node}
    {s s₁ s₂ s₃ : σ} {first last : Answer} {os : Option (List Element)}
    (henter : rewriter.enter n cursor s = (first, s₁))
    (hos : visitChildren (rewriter.visit limit) (first.new?.getD n) cursor 0
      (first.new?.getD n).children s₁ = some (os, s₂))
    (hleave : rewriter.leave
      (((os.map fun children => { first.new?.getD n with children }) <|> first.new?).getD n)
        cursor s₂ = (last, s₃)) :
    rewriter.visit (limit + 1) cursor n s =
      some (last.put
        ((os.map fun children => { first.new?.getD n with children }) <|> first.new?), s₃) := by
  rw [visit, henter]
  show (visitChildren (rewriter.visit limit) (first.new?.getD n) cursor 0
    (first.new?.getD n).children s₁).bind _ = _
  rw [hos]
  show some ((rewriter.leave _ cursor s₂).1.put _, (rewriter.leave _ cursor s₂).2) = _
  rw [hleave]

/-- Walks a tree whose root is accepted, at most `limit` levels deep. -/
def walkWithin (rewriter : Rewriter σ) (limit : Nat) (root : Node) (s : σ) :
    Option (Option Node × σ) :=
  if rewriter.accepts root then rewriter.visit limit [] root s else some (none, s)

/-- Walks a tree with a growing limit, from one on that may be too low, until the limit is high
enough. Where levels are added without end it comes to none. -/
def walkFrom (rewriter : Rewriter σ) (limit : Nat) (root : Node) (s : σ) :
    Option (Option Node × σ) :=
  have : Nonempty (Option Node × σ) := ⟨(none, s)⟩
  repeatM (fun limit =>
    match rewriter.walkWithin limit root s with
    | some result => some (.inr result)
    | none => some (.inl (limit + 1))) limit

theorem walkFrom_eq (rewriter : Rewriter σ) (limit : Nat) (root : Node) (s : σ) :
    rewriter.walkFrom limit root s =
      (rewriter.walkWithin limit root s).or (rewriter.walkFrom (limit + 1) root s) := by
  have : Nonempty (Option Node × σ) := ⟨(none, s)⟩
  rw [walkFrom, repeatM_eq_of_monadTail]
  cases hwithin : rewriter.walkWithin limit root s with
  | none => simp only [repeatM.body, hwithin, Option.none_or]; rfl
  | some result => simp only [repeatM.body, hwithin, Option.some_or]; rfl

/-- Walks a tree as deep as it takes. Its height is deep enough unless levels are added to a node
when it is entered. -/
def walk (rewriter : Rewriter σ) (root : Node) (s : σ) : Option Node × σ :=
  (rewriter.walkWithin root.height root s <|> rewriter.walkFrom (root.height + 1) root s).getD
    (none, s)

end Rewriter

/-- A rewriter each of whose replacements is a new node. It may answer with a replacement or not at
all. -/
structure Visitor (σ : Type) where
  /-- The visitor applies to trees with this root at all. -/
  accepts : Node → Bool := fun _ => true
  /-- Sees a node before its children are visited. -/
  enter : Node → Cursor → σ → Option Node × σ := fun _ _ s => (none, s)
  /-- Sees a node after its children were visited. -/
  leave : Node → Cursor → σ → Option Node × σ := fun _ _ s => (none, s)

namespace Visitor

variable {σ : Type}

/-- The visitor as a rewriter. -/
def rewriter (visitor : Visitor σ) : Rewriter σ where
  accepts := visitor.accepts
  enter n cursor s := Prod.map .ofNew id (visitor.enter n cursor s)
  leave n cursor s := Prod.map .ofNew id (visitor.leave n cursor s)

/-- Visits a node and what is below it, at most so many levels deep. -/
def visit (visitor : Visitor σ) : Nat → Cursor → Node → σ → Option (Option Node × σ) :=
  visitor.rewriter.visit

/-- Walks a tree as deep as it takes. -/
def walk (visitor : Visitor σ) (root : Node) (s : σ) : Option Node × σ :=
  visitor.rewriter.walk root s

section
variable {visitor : Visitor σ} {n : Node} {cursor : Cursor} {s s' : σ} {o : Option Node}

theorem enter_rewriter (h : visitor.enter n cursor s = (o, s')) :
    visitor.rewriter.enter n cursor s = (.ofNew o, s') := by
  show Prod.map Answer.ofNew id (visitor.enter n cursor s) = _
  rw [h]
  rfl

theorem leave_rewriter (h : visitor.leave n cursor s = (o, s')) :
    visitor.rewriter.leave n cursor s = (.ofNew o, s') := by
  show Prod.map Answer.ofNew id (visitor.leave n cursor s) = _
  rw [h]
  rfl

end

theorem visit_succ {visitor : Visitor σ} {limit : Nat} {cursor : Cursor} {n : Node}
    {s s₁ s₂ s₃ : σ} {first last : Option Node} {os : Option (List Element)}
    (henter : visitor.enter n cursor s = (first, s₁))
    (hos : visitChildren (visitor.visit limit) (first.getD n) cursor 0 (first.getD n).children s₁ =
      some (os, s₂))
    (hleave : visitor.leave
      ((os.map fun children => { first.getD n with children }).getD (first.getD n)) cursor s₂ =
        (last, s₃)) :
    visitor.visit (limit + 1) cursor n s =
      some (last <|> (os.map fun children => { first.getD n with children }) <|> first, s₃) := by
  have hheld : ((os.map fun children => { first.getD n with children }) <|> first).getD n =
      (os.map fun children => { first.getD n with children }).getD (first.getD n) := by
    cases os <;> rfl
  have hleave' : visitor.rewriter.leave
      (((os.map fun children => { first.getD n with children }) <|> first).getD n) cursor s₂ =
        (.ofNew last, s₃) := by
    rw [hheld]
    exact leave_rewriter hleave
  rw [← Answer.new_ofNew first] at hos hleave'
  have hvisit := Rewriter.visit_succ (enter_rewriter henter) hos hleave'
  rwa [Answer.new_ofNew, Answer.put_ofNew] at hvisit

/-- A walk is a visit of the root, where that ends above the height of the tree. -/
theorem walk_of_visit {visitor : Visitor σ} {root : Node} {s : σ} {r : Option Node × σ}
    (haccepts : visitor.accepts root = true) (h : visitor.visit root.height [] root s = some r) :
    visitor.walk root s = r := by
  have hwithin : visitor.rewriter.walkWithin root.height root s = some r :=
    (if_pos haccepts).trans h
  rw [walk, Rewriter.walk, hwithin]
  rfl

/-- A walk leaves a tree whose root is not accepted. -/
theorem walk_rejected {visitor : Visitor σ} {root : Node}
    (hrejects : visitor.accepts root = false) (s : σ) : visitor.walk root s = (none, s) := by
  have hwithin : visitor.rewriter.walkWithin root.height root s = some (none, s) :=
    if_neg (by simp [rewriter, hrejects])
  rw [walk, Rewriter.walk, hwithin]
  rfl

end Visitor

end Codemod.Tree
