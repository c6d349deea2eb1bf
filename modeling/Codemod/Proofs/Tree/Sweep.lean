import Codemod.Proofs.Tree.Everywhere
import Codemod.Tree.Walk
import Mathlib.Tactic.SplitIfs

/-!
Walks with a visitor that replaces no node when it enters it. Such a walk is one sweep from the
leaves to the root, and a relation that holds at each node of it, given that it holds at the
children, holds between the tree and the walk's result. The relation may depend on the place of
the node.
-/

namespace Codemod.Tree

variable {σ : Type}

/-- A relation between a node, the state at it, what stands in its place after a visit, whether
it was replaced or a node below it, and the state after the visit. -/
abbrev VisitRelation (σ : Type) :=
  Node → σ → Node → Bool → σ → Prop

/-- The relation at each of some children in order, with the state passed along. -/
inductive Swept (R : VisitRelation σ) :
    List Element → σ → List Element → Bool → σ → Prop where
  | nil {s : σ} : Swept R [] s [] false s
  | token {t : Token} {es es' : List Element} {s s' : σ} {changed : Bool}
      (h : Swept R es s es' changed s') :
      Swept R (.token t :: es) s (.token t :: es') changed s'
  | node {n n' : Node} {es es' : List Element} {s s' s'' : σ} {first others : Bool}
      (hn : R n s n' first s') (h : Swept R es s' es' others s'') :
      Swept R (.node n :: es) s (.node n' :: es') (first || others) s''

theorem Swept.imp {R S : VisitRelation σ}
    (himp : ∀ n s n' changed s', R n s n' changed s' → S n s n' changed s')
    {es es' : List Element} {s s' : σ} {changed : Bool} (h : Swept R es s es' changed s') :
    Swept S es s es' changed s' := by
  induction h with
  | nil => exact .nil
  | token _ ih => exact .token ih
  | node hn _ ih => exact .node (himp _ _ _ _ _ hn) ih

theorem Swept.tokens {R : VisitRelation σ} {es es' : List Element} {s s' : σ} {changed : Bool}
    (h : Swept R es s es' changed s') : es'.map Element.token? = es.map Element.token? := by
  induction h with
  | nil => rfl
  | token _ ih => rw [List.map_cons, List.map_cons, ih]
  | node _ _ ih =>
      rw [List.map_cons, List.map_cons, ih]
      rfl

/-- The relation at each of some children of a node under visit, the first of which stands at an
index: `R` says for each place what it asks for there. -/
inductive SweptAt (R : Cursor → VisitRelation σ) (parent : Node) (cursor : Cursor) :
    Nat → List Element → σ → List Element → Bool → σ → Prop where
  | nil {index : Nat} {s : σ} : SweptAt R parent cursor index [] s [] false s
  | token {index : Nat} {t : Token} {es es' : List Element} {s s' : σ} {changed : Bool}
      (h : SweptAt R parent cursor (index + 1) es s es' changed s') :
      SweptAt R parent cursor index (.token t :: es) s (.token t :: es') changed s'
  | node {index : Nat} {n n' : Node} {es es' : List Element} {s s' s'' : σ} {first others : Bool}
      (hn : R (⟨parent, index⟩ :: cursor) n s n' first s')
      (h : SweptAt R parent cursor (index + 1) es s' es' others s'') :
      SweptAt R parent cursor index (.node n :: es) s (.node n' :: es') (first || others) s''

theorem SweptAt.imp {R S : Cursor → VisitRelation σ}
    (himp : ∀ cursor n s n' changed s', R cursor n s n' changed s' → S cursor n s n' changed s')
    {parent : Node} {cursor : Cursor} {index : Nat} {es es' : List Element} {s s' : σ}
    {changed : Bool} (h : SweptAt R parent cursor index es s es' changed s') :
    SweptAt S parent cursor index es s es' changed s' := by
  induction h with
  | nil => exact .nil
  | token _ ih => exact .token ih
  | node hn _ ih => exact .node (himp _ _ _ _ _ _ hn) ih

theorem SweptAt.swept {R : VisitRelation σ} {parent : Node} {cursor : Cursor} {index : Nat}
    {es es' : List Element} {s s' : σ} {changed : Bool}
    (h : SweptAt (fun _ => R) parent cursor index es s es' changed s') :
    Swept R es s es' changed s' := by
  induction h with
  | nil => exact .nil
  | token _ ih => exact .token ih
  | node hn _ ih => exact .node hn ih

theorem height_le_heightList {n : Node} {es : List Element} (h : Element.node n ∈ es) :
    n.height ≤ Node.heightList es := by
  induction es with
  | nil => cases h
  | cons e es ih =>
      rw [Node.heightList]
      rcases List.mem_cons.1 h with rfl | h
      · exact Nat.le_max_left _ _
      · exact Nat.le_trans (ih h) (Nat.le_max_right _ _)

theorem height_lt {n c : Node} (h : Element.node c ∈ n.children) : c.height < n.height := by
  have hle := height_le_heightList h
  obtain ⟨kind, lead, children, markers, type?⟩ := n
  rw [Node.height]
  exact Nat.lt_succ_of_le hle

theorem visitChildren_sweeps {visit : Cursor → Node → σ → Option (Option Node × σ)}
    {R : Cursor → VisitRelation σ} {es : List Element} (parent : Node) (cursor : Cursor)
    (hvisit : ∀ n, Element.node n ∈ es → ∀ cursor s,
      ∃ o s', visit cursor n s = some (o, s') ∧ R cursor n s (o.getD n) o.isSome s')
    (index : Nat) (s : σ) :
    ∃ os s', visitChildren visit parent cursor index es s = some (os, s') ∧
      SweptAt R parent cursor index es s (os.getD es) os.isSome s' := by
  induction es generalizing index s with
  | nil => exact ⟨none, s, rfl, .nil⟩
  | cons e es ih =>
      have hrest := fun n hn => hvisit n (List.mem_cons_of_mem e hn)
      cases e with
      | token t =>
          obtain ⟨os, s', hos, hswept⟩ := ih hrest (index + 1) s
          refine ⟨os.map (.token t :: ·), s', ?_, ?_⟩
          · rw [visitChildren, hos]
            rfl
          · cases os with
            | none => exact .token hswept
            | some es' => exact .token hswept
      | node n =>
          obtain ⟨o, s', ho, hrelated⟩ :=
            hvisit n List.mem_cons_self (⟨parent, index⟩ :: cursor) s
          obtain ⟨os, s'', hos, hswept⟩ := ih hrest (index + 1) s'
          refine ⟨replaceChild (.node n) o es os, s'', ?_, ?_⟩
          · rw [visitChildren, ho]
            show (visitChildren visit parent cursor (index + 1) es s').bind _ = _
            rw [hos]
            rfl
          · cases o with
            | none =>
                cases os with
                | none => exact .node hrelated hswept
                | some es' => exact .node hrelated hswept
            | some n' =>
                cases os with
                | none => exact .node hrelated hswept
                | some es' => exact .node hrelated hswept

namespace Visitor

variable {visitor : Visitor σ}

/-- What a visit of a node makes of its children's sweep when it leaves the node, at any place. -/
def LeavesAt (visitor : Visitor σ) (R : Cursor → VisitRelation σ) : Prop :=
  ∀ {n : Node} {cursor : Cursor} {s s' : σ} {es' : List Element} {changed : Bool},
    SweptAt R n cursor 0 n.children (visitor.enter n cursor s).2 es' changed s' →
      let v : Node := { n with children := es' }
      let left := visitor.leave v cursor s'
      R cursor n s (left.1.getD v) (changed || left.1.isSome) left.2

/-- What a visit of a node makes of its children's sweep when it leaves the node. -/
def Leaves (visitor : Visitor σ) (R : VisitRelation σ) : Prop :=
  ∀ {n : Node} {cursor : Cursor} {s s' : σ} {es' : List Element} {changed : Bool},
    Swept R n.children (visitor.enter n cursor s).2 es' changed s' →
      let v : Node := { n with children := es' }
      let left := visitor.leave v cursor s'
      R n s (left.1.getD v) (changed || left.1.isSome) left.2

theorem visit_eq {limit : Nat} {cursor : Cursor} {n : Node} {s s₁ s₂ s₃ : σ}
    {os : Option (List Element)} {o : Option Node}
    (henter : visitor.enter n cursor s = (none, s₁))
    (hos : visitChildren (visitor.visit limit) n cursor 0 n.children s₁ = some (os, s₂))
    (hleft : visitor.leave ((os.map fun children => { n with children }).getD n) cursor s₂ =
      (o, s₃)) :
    visitor.visit (limit + 1) cursor n s =
      some (o <|> os.map fun children => { n with children }, s₃) := by
  have hvisit := visit_succ henter hos hleft
  cases o <;> cases os <;> exact hvisit

/-- A visit of the node that may go down to its leaves leaves this node in its place, and this
state. -/
def Visits (visitor : Visitor σ) (cursor : Cursor) (n : Node) (s : σ) (n' : Node) (s' : σ) : Prop :=
  ∀ limit, n.height ≤ limit → ∃ o, visitor.visit limit cursor n s = some (o, s') ∧ o.getD n = n'

theorem Visits.unique {cursor : Cursor} {n n₁ n₂ : Node} {s s₁ s₂ : σ}
    (h₁ : visitor.Visits cursor n s n₁ s₁) (h₂ : visitor.Visits cursor n s n₂ s₂) :
    n₁ = n₂ ∧ s₁ = s₂ := by
  obtain ⟨o₁, ho₁, rfl⟩ := h₁ n.height (Nat.le_refl _)
  obtain ⟨o₂, ho₂, rfl⟩ := h₂ n.height (Nat.le_refl _)
  rw [ho₁] at ho₂
  cases ho₂
  exact ⟨rfl, rfl⟩

/-- A walk from an accepted root is a visit of it. -/
theorem walk_of_visits {root root' : Node} {s s' : σ} (haccepts : visitor.accepts root = true)
    (h : visitor.Visits [] root s root' s') : (visitor.walk root s).1.getD root = root' := by
  obtain ⟨o, ho, hroot⟩ := h root.height (Nat.le_refl _)
  rw [walk_of_visit haccepts ho]
  exact hroot

theorem visitChildren_of_swept {parent : Node} {cursor : Cursor} {index : Nat}
    {es es' : List Element} {s s' : σ} {changed : Bool}
    (h : SweptAt (fun cursor n s n' _ s' => visitor.Visits cursor n s n' s') parent cursor index
      es s es' changed s') {limit : Nat} (hlimit : Node.heightList es ≤ limit) :
    ∃ os, visitChildren (visitor.visit limit) parent cursor index es s = some (os, s') ∧
      os.getD es = es' := by
  induction h with
  | nil => exact ⟨none, rfl, rfl⟩
  | @token index t es es' s s' changed _ ih =>
      obtain ⟨os, hos, rfl⟩ := ih (by rw [Node.heightList] at hlimit; omega)
      refine ⟨os.map (.token t :: ·), ?_, by cases os <;> rfl⟩
      rw [visitChildren, hos]
      rfl
  | @node index n n' es es' s s' s'' first others hn _ ih =>
      rw [Node.heightList] at hlimit
      obtain ⟨o, ho, rfl⟩ := hn limit (by simp only [Element.height] at hlimit; omega)
      obtain ⟨os, hos, rfl⟩ := ih (by omega)
      refine ⟨replaceChild (.node n) o es os, ?_, by cases o <;> cases os <;> rfl⟩
      rw [visitChildren, ho]
      show (visitChildren (visitor.visit limit) parent cursor (index + 1) es s').bind _ = _
      rw [hos]
      rfl

/-- A node is visited if its children are and the visitor then leaves it. -/
theorem visits_of_swept (henter : ∀ n cursor s, (visitor.enter n cursor s).1 = none) {n : Node}
    {cursor : Cursor} {s s₁ : σ} {es' : List Element} {changed : Bool}
    (h : SweptAt (fun cursor n s n' _ s' => visitor.Visits cursor n s n' s') n cursor 0 n.children
      (visitor.enter n cursor s).2 es' changed s₁) :
    let v : Node := { n with children := es' }
    let left := visitor.leave v cursor s₁
    visitor.Visits cursor n s (left.1.getD v) left.2 := by
  intro v left limit hlimit
  have hheight : n.height = Node.heightList n.children + 1 := by
    cases n
    rfl
  obtain ⟨limit, rfl⟩ := Nat.exists_eq_add_of_le' (show 1 ≤ limit by omega)
  obtain ⟨os, hos, hes'⟩ := visitChildren_of_swept h (show Node.heightList n.children ≤ limit by omega)
  have hv : (os.map fun children => { n with children }).getD n = v := by
    rw [show v = { n with children := os.getD n.children } by rw [hes']]
    cases os <;> cases n <;> rfl
  refine ⟨left.1 <|> os.map fun children => { n with children }, ?_, ?_⟩
  · have hentered : visitor.enter n cursor s = (none, (visitor.enter n cursor s).2) :=
      Prod.ext (henter n cursor s) rfl
    refine visit_eq hentered hos ?_
    rw [hv]
  · cases hleft : left.1 with
    | none => exact hv
    | some w => rfl

theorem visit_sweeps {R : Cursor → VisitRelation σ}
    (henter : ∀ n cursor s, (visitor.enter n cursor s).1 = none)
    (hleave : visitor.LeavesAt R) {limit : Nat} (cursor : Cursor) (n : Node) (s : σ)
    (hlimit : n.height ≤ limit) :
    ∃ o s', visitor.visit limit cursor n s = some (o, s') ∧
      R cursor n s (o.getD n) o.isSome s' := by
  induction limit generalizing cursor n s with
  | zero =>
      obtain ⟨kind, lead, children, markers, type?⟩ := n
      rw [Node.height] at hlimit
      omega
  | succ limit ih =>
      obtain ⟨s₁, hs₁⟩ : ∃ s₁, visitor.enter n cursor s = (none, s₁) :=
        ⟨_, Prod.ext (henter n cursor s) rfl⟩
      have hchildren : ∀ c, Element.node c ∈ n.children → ∀ cursor s,
          ∃ o s', visitor.visit limit cursor c s = some (o, s') ∧
            R cursor c s (o.getD c) o.isSome s' := fun c hc cursor s =>
        ih cursor c s (by have := height_lt hc; omega)
      obtain ⟨os, s₂, hos, hswept⟩ :=
        visitChildren_sweeps n cursor hchildren 0 s₁
      obtain ⟨v, hv⟩ : ∃ v, (os.map fun children => { n with children }).getD n = v := ⟨_, rfl⟩
      have hresult : R cursor n s ((visitor.leave v cursor s₂).1.getD v)
          (os.isSome || (visitor.leave v cursor s₂).1.isSome) (visitor.leave v cursor s₂).2 := by
        rw [← hv]
        have hswept' : SweptAt R n cursor 0 n.children (visitor.enter n cursor s).2
            (os.getD n.children) os.isSome s₂ := by
          rw [hs₁]
          exact hswept
        cases n
        cases os <;> exact hleave hswept'
      obtain ⟨o, s₃, hleft⟩ : ∃ o s₃, visitor.leave v cursor s₂ = (o, s₃) := ⟨_, _, rfl⟩
      rw [hleft] at hresult
      rw [← hv] at hresult hleft
      refine ⟨o <|> (os.map fun children => { n with children }), s₃, visit_eq hs₁ hos hleft, ?_⟩
      cases o <;> cases os <;> exact hresult

/-- What stands in place of a node is what the visitor makes of it when it leaves it, with its
children swept. -/
def LeftAt (visitor : Visitor σ) (R : Cursor → VisitRelation σ) (cursor : Cursor) :
    VisitRelation σ :=
  fun n s n' changed s' =>
    ∃ es' below s₁, SweptAt R n cursor 0 n.children (visitor.enter n cursor s).2 es' below s₁ ∧
      let v : Node := { n with children := es' }
      let left := visitor.leave v cursor s₁
      n' = left.1.getD v ∧ changed = (below || left.1.isSome) ∧ s' = left.2

/-- A walk from an accepted root relates it with the walk's result, which the visitor makes when it
leaves the root with its children swept. -/
theorem walk_leftAt {R : Cursor → VisitRelation σ}
    (henter : ∀ n cursor s, (visitor.enter n cursor s).1 = none)
    (hleave : visitor.LeavesAt R) {root : Node} (haccepts : visitor.accepts root = true) (s : σ) :
    R [] root s ((visitor.walk root s).1.getD root) (visitor.walk root s).1.isSome
        (visitor.walk root s).2 ∧
      visitor.LeftAt R [] root s ((visitor.walk root s).1.getD root)
        (visitor.walk root s).1.isSome (visitor.walk root s).2 := by
  let both : Cursor → VisitRelation σ := fun cursor n s n' changed s' =>
    R cursor n s n' changed s' ∧ visitor.LeftAt R cursor n s n' changed s'
  have hboth : visitor.LeavesAt both := by
    intro n cursor s s' es' changed hswept
    have hswept' := hswept.imp fun _ _ _ _ _ _ h => h.1
    exact ⟨hleave hswept', es', changed, s', hswept', rfl, rfl, rfl⟩
  obtain ⟨o, s', hvisit, hrelated⟩ := visit_sweeps henter hboth [] root s (Nat.le_refl _)
  rw [walk_of_visit haccepts hvisit]
  exact hrelated

/-- A walk replaces nothing where the visitor replaces no node of the tree. -/
theorem walk_idle {root : Node} {s : σ} (henter : ∀ n cursor, visitor.enter n cursor s = (none, s))
    (hleave : ∀ m ∈ root.preorder, ∀ cursor, visitor.leave m cursor s = (none, s)) :
    visitor.walk root s = (none, s) := by
  have hchildren : ∀ {visit : Cursor → Node → σ → Option (Option Node × σ)} {es : List Element},
      (∀ n, Element.node n ∈ es → ∀ cursor, visit cursor n s = some (none, s)) →
        ∀ parent cursor index, visitChildren visit parent cursor index es s = some (none, s) := by
    intro visit es hes parent cursor index
    induction es generalizing index with
    | nil => rfl
    | cons e es ih =>
        have hrest := ih (fun n hn => hes n (List.mem_cons_of_mem e hn)) (index + 1)
        cases e with
        | token t =>
            rw [visitChildren, hrest]
            rfl
        | node n =>
            rw [visitChildren, hes n List.mem_cons_self]
            show (visitChildren visit parent cursor (index + 1) es s).bind _ = _
            rw [hrest]
            rfl
  have hvisit : ∀ limit n, n.height ≤ limit → (∀ m ∈ n.preorder, ∀ cursor,
      visitor.leave m cursor s = (none, s)) → ∀ cursor,
        visitor.visit limit cursor n s = some (none, s) := by
    intro limit
    induction limit with
    | zero =>
        rintro ⟨kind, lead, children, markers, type?⟩ hlimit
        rw [Node.height] at hlimit
        omega
    | succ limit ih =>
        intro n hlimit hn cursor
        refine visit_eq (henter n cursor) (hchildren (fun c hc => ?_) n cursor 0)
          (hn n (mem_preorder_self n) cursor)
        have hheight := height_lt hc
        exact ih c (by omega) fun m hm => hn m (mem_preorder.2 (.inr ⟨c, hc, hm⟩))
  cases haccepts : visitor.accepts root with
  | false => exact walk_rejected haccepts s
  | true => exact walk_of_visit haccepts (hvisit root.height root (Nat.le_refl _) hleave [])

variable {R : VisitRelation σ}

/-- A walk from an accepted root relates it with the walk's result. -/
theorem walk_sweeps (henter : ∀ n cursor s, (visitor.enter n cursor s).1 = none)
    (hleave : visitor.Leaves R) {root : Node} (haccepts : visitor.accepts root = true) (s : σ) :
    R root s ((visitor.walk root s).1.getD root) (visitor.walk root s).1.isSome
      (visitor.walk root s).2 := by
  have hleaveAt : visitor.LeavesAt fun _ => R := fun hswept => hleave hswept.swept
  exact (walk_leftAt henter hleaveAt haccepts s).1

/-- What stands in place of a node is what the visitor makes of it when it leaves it, with its
children swept. -/
def Left (visitor : Visitor σ) (R : VisitRelation σ) : VisitRelation σ :=
  fun n s n' changed s' =>
    ∃ cursor es' below s₁, Swept R n.children (visitor.enter n cursor s).2 es' below s₁ ∧
      let v : Node := { n with children := es' }
      let left := visitor.leave v cursor s₁
      n' = left.1.getD v ∧ changed = (below || left.1.isSome) ∧ s' = left.2

/-- A walk sweeps the children of the root and then leaves the root. -/
theorem walk_left (henter : ∀ n cursor s, (visitor.enter n cursor s).1 = none)
    (hleave : visitor.Leaves R) {root : Node} (haccepts : visitor.accepts root = true) (s : σ) :
    visitor.Left R root s ((visitor.walk root s).1.getD root) (visitor.walk root s).1.isSome
      (visitor.walk root s).2 := by
  have hleaveAt : visitor.LeavesAt fun _ => R := fun hswept => hleave hswept.swept
  obtain ⟨_, es', below, s₁, hswept, hresult⟩ := walk_leftAt henter hleaveAt haccepts s
  exact ⟨[], es', below, s₁, hswept.swept, hresult⟩

end Visitor

end Codemod.Tree
