import Codemod.Proofs.Tree.Sweep
import Mathlib.Data.List.Forall2

/-!
Places in a tree. A node stands at a place if the ancestors of the place lead to it, and the tree with
another node there is put together along the same ancestors. A walk comes to each place in some state,
and leaves it in another, with the children visited: what stands at a place of the walk's result is
what the visitor made of the node when it left that place.
-/

namespace Codemod.Tree

variable {σ : Type}

/-- The node stands at the place of the tree. -/
inductive Stands (root : Node) : Cursor → Node → Prop where
  | root : Stands root [] root
  | child {cursor : Cursor} {parent n : Node} {before behind : List Element}
      (h : Stands root cursor parent) (hchildren : parent.children = before ++ .node n :: behind) :
      Stands root (⟨parent, before.length⟩ :: cursor) n

/-- The tree with another node at the place. -/
def Cursor.plug : Cursor → Node → Node
  | [], n => n
  | frame :: rest, n => Cursor.plug rest (frame.node.withChild frame.index (.node n))

section
variable {root n : Node} {cursor : Cursor}

theorem Stands.mem (h : Stands root cursor n) : n ∈ root.preorder := by
  induction h with
  | root => exact mem_preorder_self root
  | child _ hchildren ih =>
      exact mem_preorder_trans (mem_preorder.2 (.inr ⟨_, by simp [hchildren], mem_preorder_self _⟩)) ih

theorem exists_stands (h : n ∈ root.preorder) : ∃ cursor, Stands root cursor n := by
  have hbelow : ∀ (m : Node) (cursor : Cursor), Stands root cursor m → n ∈ m.preorder →
      ∃ cursor, Stands root cursor n := by
    intro m
    induction m using Node.induction_on with
    | step m ih =>
        intro cursor hm hn
        rcases mem_preorder.1 hn with rfl | ⟨c, hc, hn⟩
        · exact ⟨cursor, hm⟩
        · obtain ⟨before, behind, hchildren⟩ := List.append_of_mem hc
          exact ih c hc _ (.child hm hchildren) hn
  exact hbelow root [] .root h

theorem Stands.ancestor (h : Stands root cursor n) {frame : Frame} (hframe : frame ∈ cursor) :
    frame.node ∈ root.preorder := by
  induction h with
  | root => cases hframe
  | child h _ ih =>
      rcases List.mem_cons.1 hframe with rfl | hframe
      · exact h.mem
      · exact ih hframe

theorem withChild_split {before behind : List Element} {e : Element} (m : Node)
    (h : n.children = before ++ e :: behind) :
    n.withChild before.length (.node m) = { n with children := before ++ .node m :: behind } := by
  simp [Node.withChild, h]

theorem Stands.unique {n' : Node} {cursor' : Cursor} (h : Stands root cursor n)
    (h' : Stands root cursor' n') (hpath : cursor'.map Frame.index = cursor.map Frame.index) :
    cursor' = cursor ∧ n' = n := by
  induction h generalizing cursor' n' with
  | root =>
      obtain rfl := List.map_eq_nil_iff.1 hpath
      cases h'
      exact ⟨rfl, rfl⟩
  | @child cursor parent n before behind _ hchildren ih =>
      cases h' with
      | root => cases hpath
      | @child cursor' parent' _ before' behind' h' hchildren' =>
          obtain ⟨hlength, hpath⟩ := List.cons.inj hpath
          obtain ⟨rfl, rfl⟩ := ih h' hpath
          obtain ⟨rfl, htail⟩ := List.append_inj (hchildren.symm.trans hchildren') hlength.symm
          cases htail
          exact ⟨rfl, rfl⟩

end

/-- The node to which child indices lead from a node at a place, with its own place. -/
def placeFrom (cursor : Cursor) (n : Node) : List Nat → Option (Cursor × Node)
  | [] => some (cursor, n)
  | index :: path =>
      match n.children[index]? with
      | some (.node c) => placeFrom (⟨n, index⟩ :: cursor) c path
      | _ => none

theorem stands_of_placeFrom {root n n' : Node} {cursor cursor' : Cursor} {path : List Nat}
    (h : Stands root cursor n) (hplace : placeFrom cursor n path = some (cursor', n')) :
    Stands root cursor' n' := by
  induction path generalizing cursor n with
  | nil =>
      cases hplace
      exact h
  | cons index path ih =>
      rw [placeFrom] at hplace
      split at hplace
      · rename_i c hc
        obtain ⟨hindex, hget⟩ := List.getElem?_eq_some_iff.1 hc
        have hchildren : n.children =
            n.children.take index ++ .node c :: n.children.drop (index + 1) := by
          rw [← hget, List.getElem_cons_drop, List.take_append_drop]
        have hchild := h.child hchildren
        rw [List.length_take, Nat.min_eq_left (Nat.le_of_lt hindex)] at hchild
        exact ih hchild hplace
      · cases hplace

/-! ### Sweeps over parts of the children -/

section
variable {R : Cursor → VisitRelation σ} {parent : Node} {cursor : Cursor} {index : Nat}
  {es es' fs fs' : List Element} {s t u : σ} {changed others : Bool}

theorem SweptAt.append (h : SweptAt R parent cursor index es s es' changed t)
    (h' : SweptAt R parent cursor (index + es.length) fs t fs' others u) :
    SweptAt R parent cursor index (es ++ fs) s (es' ++ fs') (changed || others) u := by
  induction h with
  | nil => simpa using h'
  | token _ ih =>
      refine .token (ih ?_)
      rwa [List.length_cons, ← Nat.add_assoc, Nat.add_right_comm] at h'
  | node hn _ ih =>
      rw [List.cons_append, List.cons_append, Bool.or_assoc]
      refine .node hn (ih ?_)
      rwa [List.length_cons, ← Nat.add_assoc, Nat.add_right_comm] at h'

theorem SweptAt.length (h : SweptAt R parent cursor index es s es' changed t) :
    es'.length = es.length := by
  induction h with
  | nil => rfl
  | token _ ih => rw [List.length_cons, List.length_cons, ih]
  | node _ _ ih => rw [List.length_cons, List.length_cons, ih]

theorem SweptAt.split {before' behind' : List Element} {n' : Node}
    (h : SweptAt R parent cursor index es s (before' ++ .node n' :: behind') changed u) :
    ∃ before n behind t t' c c' c'', es = before ++ .node n :: behind ∧
      before.length = before'.length ∧
      SweptAt R parent cursor index before s before' c t ∧
      R (⟨parent, index + before.length⟩ :: cursor) n t n' c' t' ∧
      SweptAt R parent cursor (index + (before.length + 1)) behind t' behind' c'' u := by
  induction before' generalizing index es s changed with
  | nil =>
      cases h with
      | node hn h => exact ⟨[], _, _, _, _, _, _, _, rfl, rfl, .nil, hn, h⟩
  | cons e before' ih =>
      cases h with
      | token h =>
          obtain ⟨before, n, behind, t, t', c, c', c'', rfl, hlength, hbefore, hn, hbehind⟩ := ih h
          rw [Nat.add_right_comm, Nat.add_assoc] at hn hbehind
          exact ⟨_ :: before, n, behind, t, t', c, c', c'', rfl, by simp [hlength],
            .token hbefore, hn, hbehind⟩
      | node hfirst h =>
          obtain ⟨before, n, behind, t, t', c, c', c'', rfl, hlength, hbefore, hn, hbehind⟩ := ih h
          rw [Nat.add_right_comm, Nat.add_assoc] at hn hbehind
          exact ⟨_ :: before, n, behind, t, t', _, c', c'', rfl, by simp [hlength],
            .node hfirst hbefore, hn, hbehind⟩

end

/-! ### What a walk comes to -/

namespace Visitor

variable {visitor : Visitor σ}

/-- The visits of a visitor, as a relation at each place. -/
abbrev Visiting (visitor : Visitor σ) : Cursor → VisitRelation σ :=
  fun cursor n s n' _ s' => visitor.Visits cursor n s n' s'

/-- A walk over the tree that begins in the state `s` comes to the node at the place in the state
`t`. -/
inductive Reaches (visitor : Visitor σ) (root : Node) (s : σ) : Cursor → Node → σ → Prop where
  | root : Reaches visitor root s [] root s
  | child {cursor : Cursor} {parent n : Node} {before before' behind : List Element} {t t' : σ}
      {changed : Bool} (h : Reaches visitor root s cursor parent t)
      (hchildren : parent.children = before ++ .node n :: behind)
      (hbefore : SweptAt visitor.Visiting parent cursor 0 before (visitor.enter parent cursor t).2
        before' changed t') :
      Reaches visitor root s (⟨parent, before.length⟩ :: cursor) n t'

/-- A walk over the tree that begins in the state `s` has visited the children of the node at the
place, which has become `v`, and leaves it in the state `t`. -/
def Finishes (visitor : Visitor σ) (root : Node) (s : σ) (cursor : Cursor) (v : Node) (t : σ) : Prop :=
  ∃ n t₀ es' changed, visitor.Reaches root s cursor n t₀ ∧
    SweptAt visitor.Visiting n cursor 0 n.children (visitor.enter n cursor t₀).2 es' changed t ∧
    v = { n with children := es' }

theorem Reaches.stands {root n : Node} {s t : σ} {cursor : Cursor}
    (h : visitor.Reaches root s cursor n t) : Stands root cursor n := by
  induction h with
  | root => exact .root
  | child _ hchildren _ ih => exact .child ih hchildren

theorem swept_unique {parent : Node} {cursor : Cursor} {index : Nat} {es es' es'' : List Element}
    {s t t' : σ} {changed changed' : Bool}
    (h : SweptAt visitor.Visiting parent cursor index es s es' changed t)
    (h' : SweptAt visitor.Visiting parent cursor index es s es'' changed' t') :
    es' = es'' ∧ t = t' := by
  induction h generalizing es'' changed' with
  | nil =>
      cases h'
      exact ⟨rfl, rfl⟩
  | token _ ih =>
      cases h' with
      | token h' =>
          obtain ⟨rfl, rfl⟩ := ih h'
          exact ⟨rfl, rfl⟩
  | node hn _ ih =>
      cases h' with
      | node hn' h' =>
          obtain ⟨rfl, rfl⟩ := hn.unique hn'
          obtain ⟨rfl, rfl⟩ := ih h'
          exact ⟨rfl, rfl⟩

theorem Reaches.parent {root parent n : Node} {index : Nat} {rest : Cursor} {s t : σ}
    (h : visitor.Reaches root s (⟨parent, index⟩ :: rest) n t) :
    ∃ u before before' behind changed, visitor.Reaches root s rest parent u ∧
      parent.children = before ++ .node n :: behind ∧ before.length = index ∧
      SweptAt visitor.Visiting parent rest 0 before (visitor.enter parent rest u).2 before' changed
        t := by
  generalize hplace : (⟨parent, index⟩ :: rest : Cursor) = place at h
  cases h with
  | root => cases hplace
  | child hparent hchildren hbefore =>
      obtain ⟨hframe, rfl⟩ := List.cons.inj hplace
      obtain ⟨rfl, rfl⟩ := Frame.mk.inj hframe
      exact ⟨_, _, _, _, _, hparent, hchildren, rfl, hbefore⟩

/-- The children of a node are swept around one of them. -/
theorem swept_around {parent n n' : Node} {rest : Cursor} {s t t' u : σ}
    {before before' behind behind' : List Element} {changed changed' : Bool}
    (hchildren : parent.children = before ++ .node n :: behind)
    (hbefore : SweptAt visitor.Visiting parent rest 0 before s before' changed t)
    (hn : visitor.Visits (⟨parent, before.length⟩ :: rest) n t n' t')
    (hbehind : SweptAt visitor.Visiting parent rest (before.length + 1) behind t' behind' changed' u) :
    ∃ swept, SweptAt visitor.Visiting parent rest 0 parent.children s
      (before' ++ .node n' :: behind') swept u := by
  have hfrom : SweptAt visitor.Visiting parent rest (0 + before.length) (.node n :: behind) t
      (.node n' :: behind') (false || changed') u := by
    rw [Nat.zero_add]
    exact .node hn hbehind
  rw [hchildren]
  exact ⟨_, hbefore.append hfrom⟩

theorem Reaches.unique {root n n' : Node} {s t t' : σ} {cursor : Cursor}
    (h : visitor.Reaches root s cursor n t) (h' : visitor.Reaches root s cursor n' t') :
    n = n' ∧ t = t' := by
  induction h generalizing n' t' with
  | root =>
      cases h'
      exact ⟨rfl, rfl⟩
  | @child cursor parent n before before' behind t t₁ changed h hchildren hbefore ih =>
      obtain ⟨u, _, _, _, _, hparent, hchildren', hlength, hbefore'⟩ := h'.parent
      obtain ⟨rfl, htail⟩ := List.append_inj (hchildren.symm.trans hchildren') hlength.symm
      cases htail
      obtain ⟨-, rfl⟩ := ih hparent
      exact ⟨rfl, (swept_unique hbefore hbefore').2⟩

section
variable (henter : ∀ n cursor s, (visitor.enter n cursor s).1 = none)
include henter

/-- Each node is visited, as the visitor leaves it with its children visited. -/
theorem exists_visits (cursor : Cursor) (n : Node) (s : σ) :
    ∃ es' changed s₁, SweptAt visitor.Visiting n cursor 0 n.children (visitor.enter n cursor s).2
      es' changed s₁ ∧
        let v : Node := { n with children := es' }
        visitor.Visits cursor n s ((visitor.leave v cursor s₁).1.getD v)
          (visitor.leave v cursor s₁).2 := by
  let R : Cursor → VisitRelation σ := fun cursor n s n' changed s' =>
    visitor.Visits cursor n s n' s' ∧ visitor.LeftAt visitor.Visiting cursor n s n' changed s'
  have hleave : visitor.LeavesAt R := by
    intro n cursor s s' es' changed hswept
    have hvisiting := hswept.imp fun _ _ _ _ _ _ h => h.1
    exact ⟨visits_of_swept henter hvisiting, es', changed, s', hvisiting, rfl, rfl, rfl⟩
  obtain ⟨o, s', _, hvisits, es', changed, s₁, hswept, hn', _, hs'⟩ :=
    visit_sweeps henter hleave cursor n s (Nat.le_refl _)
  refine ⟨es', changed, s₁, hswept, ?_⟩
  rw [hn', hs'] at hvisits
  exact hvisits

/-- Some children of a node are swept from each state on. -/
theorem exists_swept (parent : Node) (cursor : Cursor) (es : List Element) (index : Nat) (s : σ) :
    ∃ es' changed t, SweptAt visitor.Visiting parent cursor index es s es' changed t := by
  induction es generalizing index s with
  | nil => exact ⟨_, _, _, .nil⟩
  | cons e es ih =>
      cases e with
      | token t =>
          obtain ⟨es', changed, u, h⟩ := ih (index + 1) s
          exact ⟨_, _, _, .token h⟩
      | node n =>
          obtain ⟨_, _, s₁, _, hn⟩ := exists_visits henter (⟨parent, index⟩ :: cursor) n s
          obtain ⟨es', changed, u, h⟩ := ih (index + 1) _
          exact ⟨_, false || changed, _, .node hn h⟩

theorem Visits.related {R : Cursor → VisitRelation σ} (hleave : visitor.LeavesAt R) {cursor : Cursor}
    {n n' : Node} {s s' : σ} (h : visitor.Visits cursor n s n' s') :
    ∃ changed, R cursor n s n' changed s' := by
  obtain ⟨o, s₁, hvisit, hrelated⟩ := visit_sweeps henter hleave cursor n s (Nat.le_refl _)
  obtain ⟨o', hvisit', rfl⟩ := h n.height (Nat.le_refl _)
  obtain ⟨rfl, rfl⟩ := Prod.mk.inj (Option.some.inj (hvisit.symm.trans hvisit'))
  exact ⟨_, hrelated⟩

variable (hkeeps : ∀ {v n' : Node} {cursor : Cursor} {s : σ},
  (visitor.leave v cursor s).1 = some n' → n'.children = v.children)
include hkeeps

theorem finishes_of_stands {T : Node → Node → Prop}
    (hT : ∀ {cursor n s n' s'}, visitor.Visits cursor n s n' s' → T n n') {root root' : Node}
    {s s' : σ} (hroot : visitor.Visits [] root s root' s') {cursor' : Cursor} {n' : Node}
    (h : Stands root' cursor' n') :
    ∃ cursor v t, visitor.Finishes root s cursor v t ∧ n' = (visitor.leave v cursor t).1.getD v ∧
      List.Forall₂ (fun frame frame' => frame.index = frame'.index ∧ T frame.node frame'.node)
        cursor cursor' := by
  -- A visit of the node that was reached finishes it, and it is visited in one way.
  have hfinishes : ∀ {cursor n t n' t'}, visitor.Reaches root s cursor n t →
      visitor.Visits cursor n t n' t' → ∃ v t₁, visitor.Finishes root s cursor v t₁ ∧
        n' = (visitor.leave v cursor t₁).1.getD v := by
    intro cursor n t n' t' hreaches hvisits
    obtain ⟨es', changed, t₁, hswept, hvisits'⟩ := exists_visits henter cursor n t
    exact ⟨_, t₁, ⟨n, t, es', changed, hreaches, hswept, rfl⟩, (hvisits.unique hvisits').1⟩
  induction h with
  | root =>
      obtain ⟨v, t, hv, hn'⟩ := hfinishes .root hroot
      exact ⟨[], v, t, hv, hn', .nil⟩
  | @child cursor' parent' n' before' behind' _ hchildren' ih =>
      obtain ⟨cursor, v, t, ⟨parent, t₀, es', changed, hreaches, hswept, rfl⟩, hparent', hframes⟩ := ih
      have hes' : es' = before' ++ .node n' :: behind' := by
        rw [← hchildren', hparent']
        cases hleft : (visitor.leave { parent with children := es' } cursor t).1 with
        | none => rfl
        | some w => exact (hkeeps hleft).symm
      subst hes'
      obtain ⟨before, n, behind, t₁, t₂, c, c', c'', hchildren, hlength, hbefore, hn, hbehind⟩ :=
        hswept.split
      rw [Nat.zero_add] at hn
      obtain ⟨w, t₃, hw, hn'⟩ := hfinishes (.child hreaches hchildren hbefore) hn
      refine ⟨_, w, t₃, hw, hn', .cons ⟨hlength, ?_⟩ hframes⟩
      rw [hparent']
      exact hT (visits_of_swept henter hswept)

end

end Visitor

end Codemod.Tree
