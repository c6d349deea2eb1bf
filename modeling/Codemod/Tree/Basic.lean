import Codemod.Java.Type
import Codemod.Tree.Kind

/-!
The tree model of every supported format. A tree keeps the whole text: each token and each
node carries the trivia in front of it, and printing an untouched tree gives the text it
was read from.
-/

namespace Codemod.Tree

/-- What a token is. -/
inductive TokenKind where
  | identifier
  | keyword
  | literal
  | punct
  /-- The text of a key or a scalar. -/
  | text
  /-- A token without text that holds the trivia at the end. -/
  | eof
deriving DecidableEq, Repr

/-- A leaf of the tree: text with the blanks and comments in front of it. -/
structure Token where
  kind : TokenKind
  lead : String
  text : String
deriving DecidableEq, Repr

mutual

/-- A node of the tree, with the trivia in front of it, its children in order, the
delimiters that followed it, and what attribution found out about it. -/
structure Node where
  kind : Kind
  lead : String
  children : List Element
  markers : Markers := []
  type? : Option Java.TypeInfo := none

/-- A child of a node. -/
inductive Element where
  | node (node : Node)
  | token (token : Token)

end

instance : Coe Node Element := ⟨.node⟩

instance : Coe Token Element := ⟨.token⟩

instance : Inhabited Element := ⟨.token ⟨.eof, "", ""⟩⟩

instance : Inhabited Node := ⟨{ kind := .yaml .document, lead := "", children := [] }⟩

theorem Node.induction_on {P : Node → Prop}
    (step : ∀ n : Node, (∀ c, Element.node c ∈ n.children → P c) → P n) (n : Node) : P n := by
  refine Node.rec
    (motive_1 := P)
    (motive_2 := fun e => ∀ c, e = .node c → P c)
    (motive_3 := fun es => ∀ c, Element.node c ∈ es → P c) ?_ ?_ ?_ ?_ ?_ n
  · intro _ _ _ _ _ ih
    exact step _ ih
  · rintro _ ih _ ⟨⟩
    exact ih
  · rintro _ _ ⟨⟩
  · intro _ h
    cases h
  · intro _ _ ihe ihs c h
    rcases List.mem_cons.1 h with h | h
    · exact ihe c h.symm
    · exact ihs c h

mutual

/-- Structural equality of nodes, trivia and markers included. -/
def Node.decEq : (a b : Node) → Decidable (a = b)
  | ⟨k, l, cs, ms, t⟩, ⟨k', l', cs', ms', t'⟩ =>
      if hk : k = k' then
        if hl : l = l' then
          if hm : ms = ms' then
            if ht : t = t' then
              match Node.decEqList cs cs' with
              | isTrue hc => isTrue (by rw [hk, hl, hm, ht, hc])
              | isFalse hc => isFalse (by simp [hc])
            else isFalse (by simp [ht])
          else isFalse (by simp [hm])
        else isFalse (by simp [hl])
      else isFalse (by simp [hk])

/-- Structural equality of children. -/
def Element.decEq : (a b : Element) → Decidable (a = b)
  | .node a, .node b =>
      match a.decEq b with
      | isTrue h => isTrue (by rw [h])
      | isFalse h => isFalse (by simp [h])
  | .token a, .token b => if h : a = b then isTrue (by rw [h]) else isFalse (by simp [h])
  | .node _, .token _ => isFalse (by simp)
  | .token _, .node _ => isFalse (by simp)

/-- Structural equality of lists of children. -/
def Node.decEqList : (a b : List Element) → Decidable (a = b)
  | [], [] => isTrue rfl
  | [], _ :: _ => isFalse (by simp)
  | _ :: _, [] => isFalse (by simp)
  | a :: as, b :: bs =>
      match a.decEq b, Node.decEqList as bs with
      | isTrue h, isTrue h' => isTrue (by rw [h, h'])
      | isFalse h, _ => isFalse (by simp [h])
      | _, isFalse h => isFalse (by simp [h])

end

instance : DecidableEq Node := Node.decEq

instance : DecidableEq Element := Element.decEq

/-- The index of the last element that passes the test. -/
def lastIndex? {α : Type} (p : α → Bool) : List α → Option Nat
  | [] => none
  | a :: as =>
      match lastIndex? p as with
      | some index => some (index + 1)
      | none => if p a then some 0 else none

namespace Element

/-- The child as a node. -/
def node? : Element → Option Node
  | .node n => some n
  | .token _ => none

/-- The child as a token. -/
def token? : Element → Option Token
  | .node _ => none
  | .token t => some t

/-- The trivia in front of the child. -/
def lead : Element → String
  | .node n => n.lead
  | .token t => t.lead

/-- The child with other trivia in front of it. -/
def withLead : Element → String → Element
  | .node n, lead => .node { n with lead }
  | .token t, lead => .token { t with lead }

theorem lead_withLead (e : Element) (lead : String) : (e.withLead lead).lead = lead := by
  cases e <;> rfl

end Element

namespace Node

/-- A node that takes over the trivia in front of its first child. Leading trivia belongs to
the outermost node that starts at its place, so the first child is left with none. -/
def hoisted (kind : Kind) : List Element → Node
  | [] => { kind, lead := "", children := [] }
  | first :: rest => { kind, lead := first.lead, children := first.withLead "" :: rest }

/-- The child nodes in order. -/
def childNodes (n : Node) : List Node :=
  n.children.filterMap Element.node?

/-- The tokens among the children in order. -/
def tokens (n : Node) : List Token :=
  n.children.filterMap Element.token?

/-- The first child node of a kind. -/
def firstChild? (n : Node) (kind : Kind) : Option Node :=
  n.childNodes.find? fun c => c.kind == kind

/-- The index of the first child node of a kind. -/
def positionOf? (n : Node) (kind : Kind) : Option Nat :=
  n.children.findIdx? fun e => e.node?.any fun c => c.kind == kind

/-- One of the tokens among the children has this text. -/
def hasToken (n : Node) (text : String) : Bool :=
  n.tokens.any fun t => t.text == text

/-- The node with another child at an index. -/
def withChild (n : Node) (index : Nat) (child : Element) : Node :=
  { n with children := n.children.set index child }

end Node

mutual

/-- The number of levels of nodes below and including this one. -/
def Node.height : Node → Nat
  | ⟨_, _, children, _, _⟩ => Node.heightList children + 1

/-- The number of levels of nodes in a child. -/
def Element.height : Element → Nat
  | .node n => n.height
  | .token _ => 0

/-- The greatest number of levels among some children. -/
def Node.heightList : List Element → Nat
  | [] => 0
  | e :: es => max e.height (Node.heightList es)

end

mutual

/-- The node and the nodes below it, each before its children. -/
def Node.preorder : Node → List Node
  | n@⟨_, _, children, _, _⟩ => n :: Node.preorderList children

/-- The nodes of a child, each before its children. -/
def Element.preorder : Element → List Node
  | .node n => n.preorder
  | .token _ => []

/-- The nodes of some children, each before its children. -/
def Node.preorderList : List Element → List Node
  | [] => []
  | e :: es => e.preorder ++ Node.preorderList es

end

mutual

/-- All tokens below the node, in order. -/
def Node.leaves : Node → List Token
  | ⟨_, _, children, _, _⟩ => Node.leavesList children

/-- All tokens of a child, in order. -/
def Element.leaves : Element → List Token
  | .node n => n.leaves
  | .token t => [t]

/-- All tokens of some children, in order. -/
def Node.leavesList : List Element → List Token
  | [] => []
  | e :: es => e.leaves ++ Node.leavesList es

end

/-- The texts of all tokens below the node, without trivia and delimiters. -/
def Node.bareText (n : Node) : String :=
  String.join (n.leaves.map Token.text)

end Codemod.Tree
