import Codemod.Tree.Basic

/-!
Properties that hold at every node of a tree.
-/

namespace Codemod.Tree

theorem mem_childNodes {es : List Element} {n : Node} :
    n ∈ es.filterMap Element.node? ↔ Element.node n ∈ es := by
  rw [List.mem_filterMap]
  constructor
  · rintro ⟨e, he, hn⟩
    cases e with
    | node m => cases hn; exact he
    | token t => cases hn
  · exact fun h => ⟨_, h, rfl⟩

/-- The property holds of the node and of all nodes below it. -/
def Node.Everywhere (P : Node → Prop) (n : Node) : Prop :=
  ∀ m ∈ n.preorder, P m

theorem preorderList_append (es fs : List Element) :
    Node.preorderList (es ++ fs) = Node.preorderList es ++ Node.preorderList fs := by
  induction es with
  | nil => rfl
  | cons e es ih => simp only [List.cons_append, Node.preorderList, ih, List.append_assoc]

theorem preorderList_eq (es : List Element) :
    Node.preorderList es = (es.filterMap Element.node?).flatMap Node.preorder := by
  induction es with
  | nil => rfl
  | cons e es ih =>
      cases e <;>
        simp [Node.preorderList, Element.preorder, List.filterMap_cons, Element.node?, ih]

theorem mem_preorderList {m : Node} {es : List Element} :
    m ∈ Node.preorderList es ↔ ∃ c, Element.node c ∈ es ∧ m ∈ c.preorder := by
  induction es with
  | nil => simp [Node.preorderList]
  | cons e es ih =>
      cases e with
      | node n =>
          simp only [Node.preorderList, Element.preorder, List.mem_append, ih, List.mem_cons,
            Element.node.injEq]
          constructor
          · rintro (h | ⟨c, hc, h⟩)
            · exact ⟨n, .inl rfl, h⟩
            · exact ⟨c, .inr hc, h⟩
          · rintro ⟨c, rfl | hc, h⟩
            · exact .inl h
            · exact .inr ⟨c, hc, h⟩
      | token t => simp [Node.preorderList, Element.preorder, ih]

theorem mem_preorder {m n : Node} :
    m ∈ n.preorder ↔ m = n ∨ ∃ c, Element.node c ∈ n.children ∧ m ∈ c.preorder := by
  obtain ⟨kind, lead, children, markers, type?⟩ := n
  rw [Node.preorder, List.mem_cons, mem_preorderList]

theorem mem_preorder_self (n : Node) : n ∈ n.preorder :=
  mem_preorder.2 (.inl rfl)

theorem everywhere_iff {P : Node → Prop} {n : Node} :
    n.Everywhere P ↔ P n ∧ ∀ c, Element.node c ∈ n.children → c.Everywhere P := by
  constructor
  · intro h
    exact ⟨h n (mem_preorder.2 (.inl rfl)),
      fun c hc m hm => h m (mem_preorder.2 (.inr ⟨c, hc, hm⟩))⟩
  · rintro ⟨hn, hchildren⟩ m hm
    rcases mem_preorder.1 hm with rfl | ⟨c, hc, hmc⟩
    · exact hn
    · exact hchildren c hc m hmc

theorem mem_preorder_trans {l m n : Node} (hl : l ∈ m.preorder) (hm : m ∈ n.preorder) :
    l ∈ n.preorder := by
  induction n using Node.induction_on with
  | step n ih =>
      rcases mem_preorder.1 hm with rfl | ⟨c, hc, hm⟩
      · exact hl
      · exact mem_preorder.2 (.inr ⟨c, hc, ih c hc hm⟩)

theorem leaves_eq (n : Node) : n.leaves = Node.leavesList n.children := by
  cases n
  rfl

theorem mem_leavesList {t : Token} {es : List Element} :
    t ∈ Node.leavesList es ↔ Element.token t ∈ es ∨ ∃ c, Element.node c ∈ es ∧ t ∈ c.leaves := by
  induction es with
  | nil => simp [Node.leavesList]
  | cons e es ih =>
      cases e with
      | node n =>
          simp only [Node.leavesList, Element.leaves, List.mem_append, ih, List.mem_cons,
            Element.node.injEq, reduceCtorEq, false_or, or_and_right, exists_or, exists_eq_left]
          exact or_left_comm
      | token u =>
          simp [Node.leavesList, Element.leaves, ih, or_assoc]

/-- The tokens below a node stand among the children of the nodes of its tree. -/
theorem mem_leaves {t : Token} {n : Node} :
    t ∈ n.leaves ↔ ∃ m ∈ n.preorder, Element.token t ∈ m.children := by
  induction n using Node.induction_on with
  | step n ih =>
      rw [leaves_eq, mem_leavesList]
      constructor
      · rintro (h | ⟨c, hc, h⟩)
        · exact ⟨n, mem_preorder_self n, h⟩
        · obtain ⟨m, hm, h⟩ := (ih c hc).1 h
          exact ⟨m, mem_preorder.2 (.inr ⟨c, hc, hm⟩), h⟩
      · rintro ⟨m, hm, h⟩
        rcases mem_preorder.1 hm with rfl | ⟨c, hc, hm⟩
        · exact .inl h
        · exact .inr ⟨c, hc, (ih c hc).2 ⟨m, hm, h⟩⟩

theorem Node.Everywhere.imp {P Q : Node → Prop} (h : ∀ m, P m → Q m) {n : Node}
    (hn : n.Everywhere P) : n.Everywhere Q :=
  fun m hm => h m (hn m hm)

end Codemod.Tree
