import Codemod.Proofs.Tree.Sweep
import Mathlib.Data.List.Nodup

/-!
The calls of a walk. A tour is what a walk does at a node, whatever is answered: the node is
entered, the child nodes of what it then is are visited one after another, and it is left with what
stands in their places. The main statements say where the calls of a tour are made, that none is made
twice, and that a node stays where no call replaced it for good.
-/

namespace Codemod.Tree

/-- When a node is shown. -/
inductive Moment where
  | enter
  | leave
deriving DecidableEq, Repr

/-- A call of a walk: which node was shown, where, and what was answered. -/
structure Call where
  moment : Moment
  node : Node
  cursor : Cursor
  answer : Answer

namespace Call

/-- What the node is that the call entered. -/
def entered (call : Call) : Node :=
  call.answer.new?.getD call.node

/-- The moment of the call and the path to the node. -/
def place (call : Call) : Moment × List Nat :=
  (call.moment, call.cursor.path)

end Call

/-- The node with other children. -/
def Node.withChildren (n : Node) (children : List Element) : Node :=
  { n with children }

theorem withChildren_self (n : Node) : n.withChildren n.children = n := by
  cases n
  rfl

mutual

/-- The visit of a node at a place: the answer when it is entered, the visits of the child nodes of
what it then is, and the answer when it is left. -/
inductive Tour : Cursor → Node → Type where
  | visit {cursor : Cursor} {shown : Node} (first : Answer)
      (inner : Tours (first.new?.getD shown) cursor 0 (first.new?.getD shown).children)
      (last : Answer) : Tour cursor shown

/-- The visits of the nodes among some children of `parent`, of which the first stands at
`index`. -/
inductive Tours : Node → Cursor → Nat → List Element → Type where
  | nil {parent : Node} {cursor : Cursor} {index : Nat} : Tours parent cursor index []
  | token {parent : Node} {cursor : Cursor} {index : Nat} {t : Token} {es : List Element}
      (rest : Tours parent cursor (index + 1) es) : Tours parent cursor index (.token t :: es)
  | node {parent : Node} {cursor : Cursor} {index : Nat} {n : Node} {es : List Element}
      (first : Tour (⟨parent, index⟩ :: cursor) n) (rest : Tours parent cursor (index + 1) es) :
      Tours parent cursor index (.node n :: es)

end

mutual

/-- What a visit puts in place of the node, if it does not leave the very node there. -/
def Tour.result? {cursor : Cursor} {n : Node} : Tour cursor n → Option Node
  | .visit first inner last =>
      last.put
        ((if inner.replaces then some ((first.new?.getD n).withChildren inner.left) else none)
          <|> first.new?)

/-- One of the visits puts another node in place of a child. -/
def Tours.replaces {parent : Node} {cursor : Cursor} {index : Nat} {es : List Element} :
    Tours parent cursor index es → Bool
  | .nil => false
  | .token rest => rest.replaces
  | .node first rest => first.result?.isSome || rest.replaces

/-- The children behind the visits. A child stays where nothing was put in its place. -/
def Tours.left {parent : Node} {cursor : Cursor} {index : Nat} {es : List Element} :
    Tours parent cursor index es → List Element
  | .nil => []
  | .token (t := t) rest => .token t :: rest.left
  | .node (n := n) first rest => .node (first.result?.getD n) :: rest.left

end

mutual

/-- The calls of a visit in their order: the node is entered, its child nodes are visited, and it
is left with what their visits put in their places. -/
def Tour.calls {cursor : Cursor} {n : Node} : Tour cursor n → List Call
  | .visit first inner last =>
      ⟨.enter, n, cursor, first⟩ :: inner.calls
        ++ [⟨.leave, (first.new?.getD n).withChildren inner.left, cursor, last⟩]

/-- The calls of the visits of some children, one child after another. -/
def Tours.calls {parent : Node} {cursor : Cursor} {index : Nat} {es : List Element} :
    Tours parent cursor index es → List Call
  | .nil => []
  | .token rest => rest.calls
  | .node first rest => first.calls ++ rest.calls

end

mutual

/-- The number of levels that a visit goes down. -/
def Tour.depth {cursor : Cursor} {n : Node} : Tour cursor n → Nat
  | .visit _ inner _ => inner.depth + 1

/-- The greatest number of levels that one of the visits goes down. -/
def Tours.depth {parent : Node} {cursor : Cursor} {index : Nat} {es : List Element} :
    Tours parent cursor index es → Nat
  | .nil => 0
  | .token rest => rest.depth
  | .node first rest => max first.depth rest.depth

end

mutual

/-- The visit and those below it, in the order in which they begin. -/
def Tour.visits {cursor : Cursor} {n : Node} : Tour cursor n → List (Σ cursor n, Tour cursor n)
  | .visit first inner last => ⟨cursor, n, .visit first inner last⟩ :: inner.visits

/-- The visits of some children and those below them. -/
def Tours.visits {parent : Node} {cursor : Cursor} {index : Nat} {es : List Element} :
    Tours parent cursor index es → List (Σ cursor n, Tour cursor n)
  | .nil => []
  | .token rest => rest.visits
  | .node first rest => first.visits ++ rest.visits

end

theorem calls_subset {cursor : Cursor} {n : Node} {first last : Answer}
    (inner : Tours (first.new?.getD n) cursor 0 (first.new?.getD n).children) :
    inner.calls ⊆ (Tour.visit first inner last).calls := by
  intro call h
  rw [Tour.calls]
  exact List.mem_append_left _ (List.mem_cons_of_mem _ h)

theorem mem_calls {cursor : Cursor} {n : Node} {first last : Answer}
    {inner : Tours (first.new?.getD n) cursor 0 (first.new?.getD n).children} {call : Call} :
    call ∈ (Tour.visit first inner last).calls ↔
      call = ⟨.enter, n, cursor, first⟩ ∨ call ∈ inner.calls ∨
        call = ⟨.leave, (first.new?.getD n).withChildren inner.left, cursor, last⟩ := by
  rw [Tour.calls, List.cons_append, List.mem_cons, List.mem_append, List.mem_singleton]

/-! ### What a visit replaces -/

theorem Tours.left_eq {parent : Node} {cursor : Cursor} {index : Nat} {es : List Element} :
    (ts : Tours parent cursor index es) → ts.replaces = false → ts.left = es
  | .nil, _ => rfl
  | .token rest, h => by rw [Tours.left, rest.left_eq h]
  | .node first rest, h => by
      obtain ⟨hfirst, hrest⟩ := Bool.or_eq_false_iff.1 h
      have hnone : first.result? = none := by simpa using hfirst
      rw [Tours.left, rest.left_eq hrest, hnone, Option.getD_none]

/-- The children that the visits leave, if any of them is replaced. -/
def Tours.children? {parent : Node} {cursor : Cursor} {index : Nat} {es : List Element}
    (ts : Tours parent cursor index es) : Option (List Element) :=
  if ts.replaces then some ts.left else none

theorem Tours.children_getD {parent : Node} {cursor : Cursor} {index : Nat} {es : List Element}
    (ts : Tours parent cursor index es) : ts.children?.getD es = ts.left := by
  rw [children?]
  split
  · rfl
  · rename_i h
    exact (ts.left_eq (Bool.eq_false_iff.2 h)).symm

theorem Tours.children_token {parent : Node} {cursor : Cursor} {index : Nat} {t : Token}
    {es : List Element} (rest : Tours parent cursor (index + 1) es) :
    (Tours.token (t := t) rest).children? = rest.children?.map (.token t :: ·) := by
  rw [children?, children?, Tours.replaces, Tours.left]
  split <;> rfl

theorem Tours.children_node {parent : Node} {cursor : Cursor} {index : Nat} {n : Node}
    {es : List Element} (first : Tour (⟨parent, index⟩ :: cursor) n)
    (rest : Tours parent cursor (index + 1) es) :
    (Tours.node first rest).children? =
      replaceChild (.node n) first.result? es rest.children? := by
  rw [children?, Tours.replaces, Tours.left, ← rest.children_getD, children?]
  cases first.result? <;> cases rest.replaces <;> rfl

/-- What has come in place of a node between the answers to its visit, if anything has. -/
def Tours.held? {cursor : Cursor} {n : Node} {first : Answer}
    (inner : Tours (first.new?.getD n) cursor 0 (first.new?.getD n).children) : Option Node :=
  (inner.children?.map (first.new?.getD n).withChildren) <|> first.new?

theorem Tours.held_getD {cursor : Cursor} {n : Node} {first : Answer}
    (inner : Tours (first.new?.getD n) cursor 0 (first.new?.getD n).children) :
    inner.held?.getD n = (first.new?.getD n).withChildren inner.left := by
  rw [held?, ← inner.children_getD]
  cases inner.children? with
  | none => exact (withChildren_self _).symm
  | some es => rfl

theorem Tour.result_visit {cursor : Cursor} {n : Node} {first last : Answer}
    (inner : Tours (first.new?.getD n) cursor 0 (first.new?.getD n).children) :
    (Tour.visit first inner last).result? = last.put inner.held? := by
  rw [Tour.result?, Tours.held?, Tours.children?]
  split <;> rfl

/-- Something had come in place of the node when it was left, and the very node that the visit began
with was handed back for it. -/
def Tour.takenBack {cursor : Cursor} {n : Node} : Tour cursor n → Bool
  | .visit _ inner last => last.isStart && inner.held?.isSome

mutual

/-- The calls of a visit that lie in no visit which was taken back. -/
def Tour.standing {cursor : Cursor} {n : Node} : Tour cursor n → List Call
  | .visit first inner last =>
      if (Tour.visit first inner last).takenBack then []
      else
        ⟨.enter, n, cursor, first⟩ :: inner.standing
          ++ [⟨.leave, (first.new?.getD n).withChildren inner.left, cursor, last⟩]

/-- The calls of some visits that lie in none which was taken back. -/
def Tours.standing {parent : Node} {cursor : Cursor} {index : Nat} {es : List Element} :
    Tours parent cursor index es → List Call
  | .nil => []
  | .token rest => rest.standing
  | .node first rest => first.standing ++ rest.standing

end

theorem Tours.held_eq_none {cursor : Cursor} {n : Node} {first : Answer}
    (inner : Tours (first.new?.getD n) cursor 0 (first.new?.getD n).children) :
    inner.held? = none ↔ inner.replaces = false ∧ first.new? = none := by
  simp [Tours.held?, Tours.children?]

mutual

/-- A visit leaves the very node exactly if no call put a new one in its place or below it, those in
visits which were taken back apart. -/
theorem Tour.result_eq_none {cursor : Cursor} {n : Node} : (t : Tour cursor n) →
    (t.result? = none ↔ ∀ call ∈ t.standing, call.answer.new? = none)
  | .visit first inner last => by
      have hheld : inner.held? = none ↔
          first.new? = none ∧ ∀ call ∈ inner.standing, call.answer.new? = none := by
        rw [inner.held_eq_none, inner.replaces_eq_false, and_comm]
      rw [Tour.result_visit, Tour.standing, Tour.takenBack]
      cases last with
      | shown => simpa [Answer.isStart, or_imp, forall_and] using hheld
      | start =>
          -- Nothing had come in place of the node, or the visit was taken back.
          cases hnone : inner.held? with
          | none => simpa [Answer.isStart, or_imp, forall_and] using hheld.1 hnone
          | some m => simp [Answer.isStart]
      | other m => simp [Answer.isStart]

theorem Tours.replaces_eq_false {parent : Node} {cursor : Cursor} {index : Nat}
    {es : List Element} : (ts : Tours parent cursor index es) →
      (ts.replaces = false ↔ ∀ call ∈ ts.standing, call.answer.new? = none)
  | .nil => by simp [Tours.replaces, Tours.standing]
  | .token rest => rest.replaces_eq_false
  | .node first rest => by
      rw [Tours.replaces, Tours.standing, Bool.or_eq_false_iff, List.forall_mem_append,
        rest.replaces_eq_false, ← first.result_eq_none, Option.isSome_eq_false_iff,
        Option.isNone_iff_eq_none]

end

/-! ### Places -/

mutual

theorem Tour.suffix_of_mem {cursor : Cursor} {n : Node} : (t : Tour cursor n) → ∀ call ∈ t.calls,
    cursor <:+ call.cursor
  | .visit first inner last, call, h => by
      rcases mem_calls.1 h with rfl | h | rfl
      · exact List.suffix_refl _
      · obtain ⟨i, _, hi⟩ := inner.suffix_of_mem call h
        exact (List.suffix_cons _ _).trans hi
      · exact List.suffix_refl _

theorem Tours.suffix_of_mem {parent : Node} {cursor : Cursor} {index : Nat} {es : List Element} :
    (ts : Tours parent cursor index es) → ∀ call ∈ ts.calls,
      ∃ i, index ≤ i ∧ (⟨parent, i⟩ :: cursor) <:+ call.cursor
  | .nil, _, h => absurd h List.not_mem_nil
  | .token rest, call, h => by
      obtain ⟨i, hi, hsuffix⟩ := rest.suffix_of_mem call h
      exact ⟨i, by omega, hsuffix⟩
  | .node first rest, call, h => by
      rcases List.mem_append.1 h with h | h
      · exact ⟨index, Nat.le_refl _, first.suffix_of_mem call h⟩
      · obtain ⟨i, hi, hsuffix⟩ := rest.suffix_of_mem call h
        exact ⟨i, by omega, hsuffix⟩

end

theorem place_ne_of_suffix {frame : Frame} {cursor : Cursor} {call : Call}
    (h : (frame :: cursor) <:+ call.cursor) (moment : Moment) :
    call.place ≠ (moment, cursor.path) := by
  intro hplace
  have hlength := congrArg (fun place => place.2.length) hplace
  have hlonger := h.length_le
  simp only [Call.place, Cursor.path, List.length_reverse, List.length_map] at hlength
  rw [List.length_cons] at hlonger
  omega

theorem place_ne_of_index {parent : Node} {cursor : Cursor} {i j : Nat} {call call' : Call}
    (h : (⟨parent, i⟩ :: cursor) <:+ call.cursor) (h' : (⟨parent, j⟩ :: cursor) <:+ call'.cursor)
    (hne : i ≠ j) : call.place ≠ call'.place := by
  intro hplace
  have hindices : call.cursor.map Frame.index = call'.cursor.map Frame.index :=
    List.reverse_inj.1 (congrArg Prod.snd hplace)
  have hi := h.map Frame.index
  rw [hindices] at hi
  have hsame := (List.suffix_of_suffix_length_le hi (h'.map Frame.index) (by simp)).eq_of_length
    (by simp)
  exact hne (List.cons.inj hsame).1

mutual

theorem Tour.nodup_places {cursor : Cursor} {n : Node} : (t : Tour cursor n) →
    (t.calls.map Call.place).Nodup
  | .visit first inner last => by
      have hother : ∀ moment, (moment, cursor.path) ∉ inner.calls.map Call.place := by
        intro moment h
        obtain ⟨call, hcall, hplace⟩ := List.mem_map.1 h
        obtain ⟨i, _, hsuffix⟩ := inner.suffix_of_mem call hcall
        exact place_ne_of_suffix hsuffix moment hplace
      rw [Tour.calls, List.map_append, List.map_cons, List.map_singleton, List.nodup_append]
      refine ⟨List.nodup_cons.2 ⟨hother .enter, inner.nodup_places⟩, by simp, ?_⟩
      rintro place hplace _ (_ | ⟨_, ⟨⟩⟩) rfl
      rcases List.mem_cons.1 hplace with h | h
      · cases h
      · exact hother .leave h

theorem Tours.nodup_places {parent : Node} {cursor : Cursor} {index : Nat} {es : List Element} :
    (ts : Tours parent cursor index es) → (ts.calls.map Call.place).Nodup
  | .nil => List.nodup_nil
  | .token rest => rest.nodup_places
  | .node first rest => by
      rw [Tours.calls, List.map_append, List.nodup_append]
      refine ⟨first.nodup_places, rest.nodup_places, ?_⟩
      intro place h place' h'
      obtain ⟨call, hcall, rfl⟩ := List.mem_map.1 h
      obtain ⟨call', hcall', rfl⟩ := List.mem_map.1 h'
      obtain ⟨i, hi, hsuffix⟩ := rest.suffix_of_mem call' hcall'
      exact place_ne_of_index (first.suffix_of_mem call hcall) hsuffix (by omega)

end

/-! ### Visits that were taken back -/

mutual

theorem Tour.calls_of_mem {cursor : Cursor} {n : Node} : (t : Tour cursor n) →
    ∀ v ∈ t.visits, v.2.2.calls ⊆ t.calls
  | .visit first inner last, v, h => by
      rw [Tour.visits, List.mem_cons] at h
      rcases h with rfl | h
      · exact List.Subset.refl _
      · exact List.Subset.trans (inner.calls_of_mem v h) (calls_subset inner)

theorem Tours.calls_of_mem {parent : Node} {cursor : Cursor} {index : Nat} {es : List Element} :
    (ts : Tours parent cursor index es) → ∀ v ∈ ts.visits, v.2.2.calls ⊆ ts.calls
  | .nil, _, h => absurd h List.not_mem_nil
  | .token rest, v, h => rest.calls_of_mem v h
  | .node first rest, v, h => by
      rcases List.mem_append.1 h with h | h
      · exact List.Subset.trans (first.calls_of_mem v h) (List.subset_append_left _ _)
      · exact List.Subset.trans (rest.calls_of_mem v h) (List.subset_append_right _ _)

end

mutual

/-- The calls that stand are those outside of all visits which were taken back. -/
theorem Tour.mem_standing {cursor : Cursor} {n : Node} : (t : Tour cursor n) → ∀ call,
    (call ∈ t.standing ↔
      call ∈ t.calls ∧ ∀ v ∈ t.visits, v.2.2.takenBack = true → call ∉ v.2.2.calls)
  | .visit first inner last, call => by
      obtain ⟨henter, hleave⟩ :
          ⟨.enter, n, cursor, first⟩ ∉ inner.calls ∧
            ⟨.leave, (first.new?.getD n).withChildren inner.left, cursor, last⟩ ∉ inner.calls := by
        have hnodup := List.Nodup.of_map _ (Tour.visit first inner last).nodup_places
        rw [Tour.calls, List.nodup_append, List.nodup_cons] at hnodup
        exact ⟨hnodup.1.1, fun h => hnodup.2.2 _ (List.mem_cons_of_mem _ h) _ (by simp) rfl⟩
      have hinner := inner.calls_of_mem
      rw [Tour.standing, Tour.visits, List.forall_mem_cons]
      split_ifs with htaken
      · exact iff_of_false List.not_mem_nil fun h => h.2.1 htaken h.1
      · rw [List.cons_append, List.mem_cons, List.mem_append, List.mem_singleton, mem_calls,
          inner.mem_standing call]
        constructor
        · rintro (rfl | ⟨hcall, houtside⟩ | rfl)
          · exact ⟨.inl rfl, fun h => absurd h htaken, fun v hv _ h => henter (hinner v hv h)⟩
          · exact ⟨.inr (.inl hcall), fun h => absurd h htaken, houtside⟩
          · exact ⟨.inr (.inr rfl), fun h => absurd h htaken, fun v hv _ h => hleave (hinner v hv h)⟩
        · rintro ⟨rfl | hcall | rfl, -, houtside⟩
          · exact .inl rfl
          · exact .inr (.inl ⟨hcall, houtside⟩)
          · exact .inr (.inr rfl)

theorem Tours.mem_standing {parent : Node} {cursor : Cursor} {index : Nat} {es : List Element} :
    (ts : Tours parent cursor index es) → ∀ call,
      (call ∈ ts.standing ↔
        call ∈ ts.calls ∧ ∀ v ∈ ts.visits, v.2.2.takenBack = true → call ∉ v.2.2.calls)
  | .nil, _ => by simp [Tours.standing, Tours.calls]
  | .token rest, call => rest.mem_standing call
  | .node first rest, call => by
      -- No call is in the visits of two children.
      have happart : ∀ call ∈ first.calls, call ∉ rest.calls := fun call h h' =>
        (List.nodup_append.1 (List.Nodup.of_map _ (Tours.node first rest).nodup_places)).2.2 call h
          call h' rfl
      have hfirst := first.calls_of_mem
      have hrest := rest.calls_of_mem
      rw [Tours.standing, Tours.calls, Tours.visits, List.mem_append, List.mem_append,
        List.forall_mem_append, first.mem_standing call, rest.mem_standing call]
      constructor
      · rintro (⟨hcall, houtside⟩ | ⟨hcall, houtside⟩)
        · exact ⟨.inl hcall, houtside, fun v hv _ h => happart call hcall (hrest v hv h)⟩
        · exact ⟨.inr hcall, fun v hv _ h => happart call (hfirst v hv h) hcall, houtside⟩
      · rintro ⟨hcall | hcall, hbefore, hbehind⟩
        · exact .inl ⟨hcall, hbefore⟩
        · exact .inr ⟨hcall, hbehind⟩

end

/-- Each call in the visit that put a new node in place of one lies in a visit that was taken back. -/
def Tour.TakesBack {cursor : Cursor} {n : Node} (t : Tour cursor n) : Prop :=
  ∀ call ∈ t.calls, call.answer.new? ≠ none →
    ∃ v ∈ t.visits, v.2.2.takenBack = true ∧ call ∈ v.2.2.calls

theorem Tour.result_eq_none_iff {cursor : Cursor} {n : Node} (t : Tour cursor n) :
    t.result? = none ↔ t.TakesBack := by
  rw [t.result_eq_none]
  constructor
  · intro h call hcall hnew
    by_contra houtside
    simp only [not_exists, not_and] at houtside
    exact hnew (h call ((t.mem_standing call).2 ⟨hcall, houtside⟩))
  · intro h call hstanding
    obtain ⟨hcall, houtside⟩ := (t.mem_standing call).1 hstanding
    by_contra hnew
    obtain ⟨v, hv, htaken, hmem⟩ := h call hcall hnew
    exact houtside v hv htaken hmem

theorem Tour.takesBack_iff {cursor : Cursor} {n : Node} {t : Tour cursor n}
    (h : ∀ v ∈ t.visits, v.2.2.takenBack = false) :
    t.TakesBack ↔ ∀ call ∈ t.calls, call.answer.new? = none := by
  constructor
  · intro htakes call hcall
    by_contra hnew
    obtain ⟨v, hv, htaken, -⟩ := htakes call hcall hnew
    rw [h v hv] at htaken
    cases htaken
  · exact fun hnone call hcall hnew => absurd (hnone call hcall) hnew

theorem Tour.enters {cursor : Cursor} {n : Node} (t : Tour cursor n) : ∃ call ∈ t.calls,
    call.moment = .enter ∧ call.node = n ∧ call.cursor = cursor := by
  cases t with
  | visit first inner last => exact ⟨_, mem_calls.2 (.inl rfl), rfl, rfl, rfl⟩

theorem Tours.enters {parent : Node} {cursor : Cursor} {index : Nat} {es : List Element} :
    (ts : Tours parent cursor index es) → ∀ i c, es[i]? = some (.node c) → ∃ call ∈ ts.calls,
      call.moment = .enter ∧ call.node = c ∧ call.cursor = ⟨parent, index + i⟩ :: cursor
  | .token rest, i + 1, c, h => by
      obtain ⟨call, hcall, hmoment, hnode, hcursor⟩ := rest.enters i c h
      exact ⟨call, hcall, hmoment, hnode, by rw [hcursor, Nat.add_right_comm]; rfl⟩
  | .node first rest, 0, c, h => by
      cases h
      obtain ⟨call, hcall, hentered⟩ := first.enters
      exact ⟨call, List.mem_append_left _ hcall, hentered⟩
  | .node first rest, i + 1, c, h => by
      obtain ⟨call, hcall, hmoment, hnode, hcursor⟩ := rest.enters i c h
      exact ⟨call, List.mem_append_right _ hcall, hmoment, hnode,
        by rw [hcursor, Nat.add_right_comm]; rfl⟩

mutual

theorem Tour.enters_child {cursor : Cursor} {n : Node} : (t : Tour cursor n) →
    ∀ call ∈ t.calls, call.moment = .enter → ∀ i c,
      call.entered.children[i]? = some (.node c) → ∃ below ∈ t.calls,
        below.moment = .enter ∧ below.node = c ∧ below.cursor = ⟨call.entered, i⟩ :: call.cursor
  | .visit first inner last, call, h, hmoment, i, c, hchild => by
      rcases mem_calls.1 h with rfl | h | rfl
      · obtain ⟨below, hbelow, henter, hnode, hcursor⟩ := inner.enters i c hchild
        rw [Nat.zero_add] at hcursor
        exact ⟨below, calls_subset inner hbelow, henter, hnode, hcursor⟩
      · obtain ⟨below, hbelow, hentered⟩ := inner.enters_child call h hmoment i c hchild
        exact ⟨below, calls_subset inner hbelow, hentered⟩
      · cases hmoment

theorem Tours.enters_child {parent : Node} {cursor : Cursor} {index : Nat} {es : List Element} :
    (ts : Tours parent cursor index es) → ∀ call ∈ ts.calls, call.moment = .enter → ∀ i c,
      call.entered.children[i]? = some (.node c) → ∃ below ∈ ts.calls,
        below.moment = .enter ∧ below.node = c ∧ below.cursor = ⟨call.entered, i⟩ :: call.cursor
  | .nil, _, h, _, _, _, _ => absurd h List.not_mem_nil
  | .token rest, call, h, hmoment, i, c, hchild => rest.enters_child call h hmoment i c hchild
  | .node first rest, call, h, hmoment, i, c, hchild => by
      rcases List.mem_append.1 h with h | h
      · obtain ⟨below, hbelow, hentered⟩ := first.enters_child call h hmoment i c hchild
        exact ⟨below, List.mem_append_left _ hbelow, hentered⟩
      · obtain ⟨below, hbelow, hentered⟩ := rest.enters_child call h hmoment i c hchild
        exact ⟨below, List.mem_append_right _ hbelow, hentered⟩

end

/-- The call is below a node that some call entered: the nearest ancestor of its place is the node
as it was entered, and the node that is entered is the child of it at the index of its place. -/
def Call.Below (calls : List Call) (call : Call) : Prop :=
  ∃ frame above, call.cursor = frame :: above ∧
    (∃ entering ∈ calls, entering.moment = .enter ∧ entering.cursor = above ∧
      entering.entered = frame.node) ∧
    (call.moment = .enter → frame.node.children[frame.index]? = some (.node call.node))

theorem Call.Below.mono {calls calls' : List Call} {call : Call} (h : call.Below calls)
    (hcalls : calls ⊆ calls') : call.Below calls' := by
  obtain ⟨frame, above, hcursor, ⟨entering, hmem, hentering⟩, hchild⟩ := h
  exact ⟨frame, above, hcursor, ⟨entering, hcalls hmem, hentering⟩, hchild⟩

mutual

theorem Tour.below_of_mem {cursor : Cursor} {n : Node} : (t : Tour cursor n) → ∀ call ∈ t.calls,
    (call.cursor = cursor ∧ (call.moment = .enter → call.node = n)) ∨ call.Below t.calls
  | .visit first inner last, call, h => by
      rcases mem_calls.1 h with rfl | h | rfl
      · exact .inl ⟨rfl, fun _ => rfl⟩
      · rcases inner.below_of_mem call h with ⟨k, hcursor, hchild⟩ | h
        · rw [Nat.zero_add] at hcursor
          exact .inr ⟨_, _, hcursor, ⟨_, mem_calls.2 (.inl rfl), rfl, rfl, rfl⟩, hchild⟩
        · exact .inr (h.mono (calls_subset inner))
      · exact .inl ⟨rfl, nofun⟩

theorem Tours.below_of_mem {parent : Node} {cursor : Cursor} {index : Nat} {es : List Element} :
    (ts : Tours parent cursor index es) → ∀ call ∈ ts.calls,
      (∃ k, call.cursor = ⟨parent, index + k⟩ :: cursor ∧
        (call.moment = .enter → es[k]? = some (.node call.node))) ∨ call.Below ts.calls
  | .nil, _, h => absurd h List.not_mem_nil
  | .token rest, call, h => by
      rcases rest.below_of_mem call h with ⟨k, hcursor, hchild⟩ | h
      · exact .inl ⟨k + 1, by rw [hcursor, Nat.add_right_comm]; rfl, hchild⟩
      · exact .inr h
  | .node first rest, call, h => by
      rcases List.mem_append.1 h with h | h
      · rcases first.below_of_mem call h with ⟨hcursor, hshown⟩ | h
        · exact .inl ⟨0, hcursor, fun hmoment => by rw [hshown hmoment]; rfl⟩
        · exact .inr (h.mono (List.subset_append_left _ _))
      · rcases rest.below_of_mem call h with ⟨k, hcursor, hchild⟩ | h
        · exact .inl ⟨k + 1, by rw [hcursor, Nat.add_right_comm]; rfl, hchild⟩
        · exact .inr (h.mono (List.subset_append_right _ _))

end

/-- The visit is one of a node below another one, and where the other one is left, what the visit
put in place of the node stands there. -/
def LeftIn (calls : List Call) (v : Σ cursor n, Tour cursor n) : Prop :=
  ∃ frame above, v.1 = frame :: above ∧
    ∃ leaving ∈ calls, leaving.moment = .leave ∧ leaving.cursor = above ∧
      leaving.node.children[frame.index]? = some (.node (v.2.2.result?.getD v.2.1))

theorem LeftIn.mono {calls calls' : List Call} {v : Σ cursor n, Tour cursor n} (h : LeftIn calls v)
    (hcalls : calls ⊆ calls') : LeftIn calls' v := by
  obtain ⟨frame, above, hcursor, leaving, hmem, hleaving⟩ := h
  exact ⟨frame, above, hcursor, leaving, hcalls hmem, hleaving⟩

mutual

theorem Tour.left_of_mem {cursor : Cursor} {n : Node} : (t : Tour cursor n) → ∀ v ∈ t.visits,
    v = ⟨cursor, n, t⟩ ∨ LeftIn t.calls v
  | .visit first inner last, v, h => by
      rw [Tour.visits, List.mem_cons] at h
      rcases h with rfl | h
      · exact .inl rfl
      · rcases inner.left_of_mem v h with ⟨k, hcursor, hchild⟩ | h
        · rw [Nat.zero_add] at hcursor
          exact .inr ⟨_, _, hcursor, _, mem_calls.2 (.inr (.inr rfl)), rfl, rfl, hchild⟩
        · exact .inr (h.mono (calls_subset inner))

theorem Tours.left_of_mem {parent : Node} {cursor : Cursor} {index : Nat} {es : List Element} :
    (ts : Tours parent cursor index es) → ∀ v ∈ ts.visits,
      (∃ k, v.1 = ⟨parent, index + k⟩ :: cursor ∧
        ts.left[k]? = some (.node (v.2.2.result?.getD v.2.1))) ∨ LeftIn ts.calls v
  | .nil, _, h => absurd h List.not_mem_nil
  | .token rest, v, h => by
      rcases rest.left_of_mem v h with ⟨k, hcursor, hchild⟩ | h
      · exact .inl ⟨k + 1, by rw [hcursor, Nat.add_right_comm]; rfl, hchild⟩
      · exact .inr h
  | .node first rest, v, h => by
      rcases List.mem_append.1 h with h | h
      · rcases first.left_of_mem v h with rfl | h
        · exact .inl ⟨0, rfl, rfl⟩
        · exact .inr (h.mono (List.subset_append_left _ _))
      · rcases rest.left_of_mem v h with ⟨k, hcursor, hchild⟩ | h
        · exact .inl ⟨k + 1, by rw [hcursor, Nat.add_right_comm]; rfl, hchild⟩
        · exact .inr (h.mono (List.subset_append_right _ _))

end

end Codemod.Tree
