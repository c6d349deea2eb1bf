import Codemod.Proofs.Tree.Tour
import Mathlib.Tactic.SplitIfs

/-!
A walk is a tour. Whatever is answered, the calls are those of one tour of the tree. The walk comes to
an end unless levels are added to the nodes that are entered. The main statement lists what a walk
does: which calls it makes in which order, what the cursor holds at each, and when the tree and the
trees below it stay.
-/

namespace Codemod.Tree.Rewriter

variable {σ : Type} {rewriter : Rewriter σ}

/-! ### The calls that a rewriter answers -/

/-- What the rewriter does at a moment. -/
def see (rewriter : Rewriter σ) : Moment → Node → Cursor → σ → Answer × σ
  | .enter => rewriter.enter
  | .leave => rewriter.leave

/-- The rewriter gives the answers of these calls one after another, and its state goes from one to
the other. -/
inductive Answers (rewriter : Rewriter σ) : List Call → σ → σ → Prop where
  | nil {s : σ} : Answers rewriter [] s s
  | cons {call : Call} {calls : List Call} {s s' s'' : σ}
      (hcall : rewriter.see call.moment call.node call.cursor s = (call.answer, s'))
      (hcalls : Answers rewriter calls s' s'') : Answers rewriter (call :: calls) s s''

theorem answers_append {calls calls' : List Call} {s s'' : σ} :
    rewriter.Answers (calls ++ calls') s s'' ↔
      ∃ s', rewriter.Answers calls s s' ∧ rewriter.Answers calls' s' s'' := by
  constructor
  · intro h
    induction calls generalizing s with
    | nil => exact ⟨s, .nil, h⟩
    | cons call calls ih =>
        cases h with
        | cons hcall hcalls =>
            obtain ⟨s', h, h'⟩ := ih hcalls
            exact ⟨s', .cons hcall h, h'⟩
  · rintro ⟨s', h, h'⟩
    induction h with
    | nil => exact h'
    | cons hcall _ ih => exact .cons hcall (ih h')

theorem answers_singleton {call : Call} {s s' : σ} :
    rewriter.Answers [call] s s' ↔
      rewriter.see call.moment call.node call.cursor s = (call.answer, s') := by
  constructor
  · rintro (_ | ⟨hcall, ⟨⟩⟩)
    exact hcall
  · exact fun h => .cons h .nil

/-! ### A visit is a tour -/

mutual

/-- A visit goes as the rewriter answers. -/
theorem visit_of_answers {cursor : Cursor} {n : Node} : (t : Tour cursor n) →
    ∀ {limit : Nat} {s s' : σ}, t.depth ≤ limit → rewriter.Answers t.calls s s' →
      rewriter.visit limit cursor n s = some (t.result?, s')
  | .visit first inner last, limit, s, s', hlimit, h => by
      rw [Tour.depth] at hlimit
      obtain ⟨limit, rfl⟩ := Nat.exists_eq_add_of_le' (show 1 ≤ limit by omega)
      rw [Tour.calls] at h
      obtain ⟨s₂, h, hlast⟩ := answers_append.1 h
      cases h with
      | cons henter hinner =>
          have hos := visitChildren_of_answers inner (Nat.le_of_succ_le_succ hlimit) hinner
          rw [Tour.result_visit]
          refine visit_succ henter hos ?_
          exact (congrArg (rewriter.leave · cursor s₂) inner.held_getD).trans
            (answers_singleton.1 hlast)

theorem visitChildren_of_answers {parent : Node} {cursor : Cursor} {index : Nat}
    {es : List Element} : (ts : Tours parent cursor index es) →
    ∀ {limit : Nat} {s s' : σ}, ts.depth ≤ limit → rewriter.Answers ts.calls s s' →
      visitChildren (rewriter.visit limit) parent cursor index es s = some (ts.children?, s')
  | .nil, _, _, _, _, h => by
      cases h
      rfl
  | .token rest, limit, s, s', hlimit, h => by
      rw [visitChildren, visitChildren_of_answers rest hlimit h, Tours.children_token]
      rfl
  | .node first rest, limit, s, s', hlimit, h => by
      rw [Tours.depth] at hlimit
      obtain ⟨s₁, hfirst, hrest⟩ := answers_append.1 h
      rw [visitChildren, visit_of_answers first (by omega) hfirst, Tours.children_node]
      show (visitChildren (rewriter.visit limit) parent cursor (index + 1) _ s₁).bind _ = _
      rw [visitChildren_of_answers rest (by omega) hrest]
      rfl

end

theorem exists_tours {limit : Nat} (hvisit : ∀ {cursor n s r s'},
      rewriter.visit limit cursor n s = some (r, s') →
        ∃ t : Tour cursor n, t.depth ≤ limit ∧ rewriter.Answers t.calls s s')
    {parent : Node} {cursor : Cursor} {index : Nat} {es : List Element} {s s' : σ}
    {os : Option (List Element)}
    (h : visitChildren (rewriter.visit limit) parent cursor index es s = some (os, s')) :
    ∃ ts : Tours parent cursor index es, ts.depth ≤ limit ∧ rewriter.Answers ts.calls s s' := by
  induction es generalizing index s os with
  | nil =>
      cases h
      exact ⟨.nil, Nat.zero_le _, .nil⟩
  | cons e es ih =>
      cases e with
      | token t =>
          rw [visitChildren] at h
          obtain ⟨⟨others, s₁⟩, hrest, h⟩ := Option.bind_eq_some_iff.1 h
          cases h
          obtain ⟨ts, hdepth, hts⟩ := ih hrest
          exact ⟨.token ts, hdepth, hts⟩
      | node n =>
          rw [visitChildren] at h
          obtain ⟨⟨first, s₁⟩, hfirst, h⟩ := Option.bind_eq_some_iff.1 h
          obtain ⟨⟨others, s₂⟩, hrest, h⟩ := Option.bind_eq_some_iff.1 h
          cases h
          obtain ⟨t, htDepth, ht⟩ := hvisit hfirst
          obtain ⟨ts, hdepth, hts⟩ := ih hrest
          exact ⟨.node t ts, Nat.max_le.2 ⟨htDepth, hdepth⟩, answers_append.2 ⟨s₁, ht, hts⟩⟩

/-- Each visit is a tour, and the rewriter answers its calls. -/
theorem exists_tour {limit : Nat} {cursor : Cursor} {n : Node} {s s' : σ} {r : Option Node}
    (h : rewriter.visit limit cursor n s = some (r, s')) :
    ∃ t : Tour cursor n, t.depth ≤ limit ∧ rewriter.Answers t.calls s s' := by
  induction limit generalizing cursor n s s' r with
  | zero => cases h
  | succ limit ih =>
      obtain ⟨first, s₁, henter⟩ : ∃ first s₁, rewriter.enter n cursor s = (first, s₁) :=
        ⟨_, _, rfl⟩
      have hvisit := h
      rw [visit, henter] at h
      obtain ⟨⟨os, s₂⟩, hos, _⟩ := Option.bind_eq_some_iff.1 h
      obtain ⟨ts, hdepth, hts⟩ := exists_tours ih hos
      have hsame := visitChildren_of_answers ts hdepth hts
      rw [hos] at hsame
      cases hsame
      obtain ⟨last, s₃, hleave⟩ : ∃ last s₃,
          rewriter.leave ((first.new?.getD n).withChildren ts.left) cursor s₂ = (last, s₃) := ⟨_, _, rfl⟩
      have hleft := (congrArg (rewriter.leave · cursor s₂) ts.held_getD).trans hleave
      rw [visit_succ henter hos hleft] at hvisit
      cases hvisit
      exact ⟨.visit first ts last, Nat.succ_le_succ hdepth,
        .cons henter (answers_append.2 ⟨s₂, hts, answers_singleton.2 hleave⟩)⟩

theorem visit_mono {limit limit' : Nat} (hle : limit ≤ limit') {cursor : Cursor} {n : Node} {s : σ}
    {r : Option Node × σ} (h : rewriter.visit limit cursor n s = some r) :
    rewriter.visit limit' cursor n s = some r := by
  obtain ⟨t, ht, hanswers⟩ := exists_tour h
  rw [← h, visit_of_answers t ht hanswers, visit_of_answers t (Nat.le_trans ht hle) hanswers]

/-! ### The end of a walk -/

theorem walkWithin_mono {limit limit' : Nat} (hle : limit ≤ limit') {root : Node} {s : σ}
    {r : Option Node × σ} (h : rewriter.walkWithin limit root s = some r) :
    rewriter.walkWithin limit' root s = some r := by
  rw [walkWithin] at h ⊢
  split_ifs at h ⊢
  · exact visit_mono hle h
  · exact h

theorem walk_eq {limit : Nat} {root : Node} {s : σ} {r : Option Node × σ}
    (h : rewriter.walkWithin limit root s = some r) : rewriter.walk root s = r := by
  have hunique : ∀ {limit' r'}, rewriter.walkWithin limit' root s = some r' → r' = r := by
    intro limit' r' h'
    have hmax := walkWithin_mono (Nat.le_max_left limit limit') h
    rw [walkWithin_mono (Nat.le_max_right limit limit') h'] at hmax
    exact Option.some.inj hmax
  have hfrom : ∀ more start, limit ≤ start + more → rewriter.walkFrom start root s = some r := by
    intro more
    induction more with
    | zero =>
        intro start hstart
        rw [walkFrom_eq, walkWithin_mono (show limit ≤ start by omega) h, Option.some_or]
    | succ more ih =>
        intro start hstart
        rw [walkFrom_eq]
        cases hlow : rewriter.walkWithin start root s with
        | none => rw [Option.none_or, ih (start + 1) (by omega)]
        | some r' => rw [hunique hlow, Option.some_or]
  rw [walk, hfrom limit _ (by omega)]
  cases hlow : rewriter.walkWithin root.height root s with
  | none => rfl
  | some r' => exact hunique hlow

theorem walk_of_answers {root : Node} (haccepts : rewriter.accepts root = true) {s s' : σ}
    {tour : Tour [] root} (h : rewriter.Answers tour.calls s s') :
    rewriter.walk root s = (tour.result?, s') := by
  have hwithin : rewriter.walkWithin tour.depth root s = some (tour.result?, s') := by
    rw [walkWithin, if_pos haccepts, visit_of_answers tour (Nat.le_refl _) h]
  exact walk_eq hwithin

/-- The walk of the tree comes to an end: there are levels that it does not go below. -/
def Ends (rewriter : Rewriter σ) (root : Node) (s : σ) : Prop :=
  ∃ limit, (rewriter.walkWithin limit root s).isSome = true

theorem answers_of_ends {root : Node} (haccepts : rewriter.accepts root = true) {s : σ}
    (hends : rewriter.Ends root s) :
    ∃ (tour : Tour [] root) (s' : σ), rewriter.Answers tour.calls s s' := by
  obtain ⟨limit, hlimit⟩ := hends
  obtain ⟨⟨r, s'⟩, hr⟩ := Option.isSome_iff_exists.1 hlimit
  rw [walkWithin, if_pos haccepts] at hr
  obtain ⟨tour, _, hanswers⟩ := exists_tour hr
  exact ⟨tour, s', hanswers⟩

theorem heightList_children (n : Node) : Node.heightList n.children + 1 = n.height := by
  cases n
  rfl

theorem visitChildren_isSome {visit : Cursor → Node → σ → Option (Option Node × σ)} {limit : Nat}
    (hvisit : ∀ cursor n s, n.height ≤ limit → (visit cursor n s).isSome = true) (parent : Node)
    (cursor : Cursor) {es : List Element} (hes : Node.heightList es ≤ limit) (index : Nat) (s : σ) :
    (visitChildren visit parent cursor index es s).isSome = true := by
  induction es generalizing index s with
  | nil => rfl
  | cons e es ih =>
      rw [Node.heightList] at hes
      have hrest := fun index s => Option.isSome_iff_exists.1 (ih (by omega) index s)
      cases e with
      | token t =>
          obtain ⟨others, hothers⟩ := hrest (index + 1) s
          rw [visitChildren, hothers]
          rfl
      | node n =>
          rw [Element.height] at hes
          obtain ⟨⟨first, s₁⟩, hfirst⟩ := Option.isSome_iff_exists.1
            (hvisit (⟨parent, index⟩ :: cursor) n s (by omega))
          obtain ⟨others, hothers⟩ := hrest (index + 1) s₁
          rw [visitChildren, hfirst]
          show ((visitChildren visit parent cursor (index + 1) es s₁).bind _).isSome = true
          rw [hothers]
          rfl

/-- No levels are added to a node when it is entered. -/
def AddsNoLevels (rewriter : Rewriter σ) : Prop :=
  ∀ n cursor s, ((rewriter.enter n cursor s).1.new?.getD n).height ≤ n.height

theorem visit_isSome (hlevels : rewriter.AddsNoLevels) {limit : Nat} (cursor : Cursor) (n : Node)
    (s : σ) (hlimit : n.height ≤ limit) : (rewriter.visit limit cursor n s).isSome = true := by
  induction limit generalizing cursor n s with
  | zero =>
      rw [← heightList_children] at hlimit
      omega
  | succ limit ih =>
      obtain ⟨first, s₁, hfirst⟩ : ∃ first s₁, rewriter.enter n cursor s = (first, s₁) :=
        ⟨_, _, rfl⟩
      have hentered : (first.new?.getD n).height ≤ n.height := by
        have h := hlevels n cursor s
        rwa [hfirst] at h
      rw [← heightList_children] at hentered
      obtain ⟨⟨os, s₂⟩, hos⟩ := Option.isSome_iff_exists.1 (visitChildren_isSome ih (first.new?.getD n)
        cursor (show Node.heightList (first.new?.getD n).children ≤ limit by omega) 0 s₁)
      rw [visit_succ hfirst hos rfl]
      rfl

theorem ends_of_addsNoLevels (hlevels : rewriter.AddsNoLevels) (root : Node) (s : σ) :
    rewriter.Ends root s := by
  refine ⟨root.height, ?_⟩
  rw [walkWithin]
  split_ifs
  · exact visit_isSome hlevels [] root s (Nat.le_refl _)
  · rfl

/-! ### Two rewriters -/

section
variable {τ : Type} {other : Rewriter τ} {R : σ → τ → Prop}

/-- In states that belong together the other rewriter gives the same answers, and both go on to
such states. -/
def Follows (rewriter : Rewriter σ) (other : Rewriter τ) (R : σ → τ → Prop) : Prop :=
  ∀ moment n cursor s t, R s t →
    (other.see moment n cursor t).1 = (rewriter.see moment n cursor s).1 ∧
      R (rewriter.see moment n cursor s).2 (other.see moment n cursor t).2

theorem Answers.follow (hfollows : rewriter.Follows other R) {calls : List Call} {s s' : σ}
    (h : rewriter.Answers calls s s') {t : τ} (hstart : R s t) :
    ∃ t', other.Answers calls t t' ∧ R s' t' := by
  induction h generalizing t with
  | nil => exact ⟨t, .nil, hstart⟩
  | @cons call calls s s₁ s₂ hcall _ ih =>
      obtain ⟨hanswer, hstate⟩ := hfollows call.moment call.node call.cursor s t hstart
      rw [hcall] at hanswer hstate
      obtain ⟨t', hcalls, hlast⟩ := ih hstate
      exact ⟨t', .cons (Prod.ext hanswer rfl) hcalls, hlast⟩

/-- A walk that comes to an end makes of the tree what that of a rewriter which follows makes. -/
theorem walk_follows (hfollows : rewriter.Follows other R) {root : Node}
    (haccepts : rewriter.accepts root = true) (haccepts' : other.accepts root = true) {s : σ}
    (hends : rewriter.Ends root s) {t : τ} (hstart : R s t) :
    (other.walk root t).1 = (rewriter.walk root s).1 := by
  obtain ⟨tour, s', hanswers⟩ := answers_of_ends haccepts hends
  obtain ⟨t', hanswers', _⟩ := hanswers.follow hfollows hstart
  rw [walk_of_answers haccepts hanswers, walk_of_answers haccepts' hanswers']

theorem follows_of_visitors {visitor : Visitor σ} {other : Visitor τ}
    (henter : ∀ n cursor s t, R s t → (other.enter n cursor t).1 = (visitor.enter n cursor s).1 ∧
      R (visitor.enter n cursor s).2 (other.enter n cursor t).2)
    (hleave : ∀ n cursor s t, R s t → (other.leave n cursor t).1 = (visitor.leave n cursor s).1 ∧
      R (visitor.leave n cursor s).2 (other.leave n cursor t).2) :
    visitor.rewriter.Follows other.rewriter R := by
  intro moment n cursor s t h
  cases moment with
  | enter => exact (henter n cursor s t h).imp_left (congrArg Answer.ofNew)
  | leave => exact (hleave n cursor s t h).imp_left (congrArg Answer.ofNew)

end

/-! ### Recording -/

/-- What the rewriter does at a moment, with the call behind those before it. -/
def record (rewriter : Rewriter σ) (moment : Moment) (n : Node) (cursor : Cursor) :
    σ × List Call → Answer × σ × List Call :=
  fun (s, calls) =>
    let (answer, s) := rewriter.see moment n cursor s
    (answer, s, calls ++ [⟨moment, n, cursor, answer⟩])

/-- The rewriter with a record of its calls. -/
def recorded (rewriter : Rewriter σ) : Rewriter (σ × List Call) where
  accepts := rewriter.accepts
  enter := rewriter.record .enter
  leave := rewriter.record .leave

theorem see_recorded (moment : Moment) (n : Node) (cursor : Cursor) (s : σ) (calls : List Call) :
    rewriter.recorded.see moment n cursor (s, calls) =
      ((rewriter.see moment n cursor s).1, (rewriter.see moment n cursor s).2,
        calls ++ [⟨moment, n, cursor, (rewriter.see moment n cursor s).1⟩]) := by
  cases moment <;> rfl

theorem Answers.recorded {calls : List Call} {s s' : σ} (h : rewriter.Answers calls s s')
    (before : List Call) : rewriter.recorded.Answers calls (s, before) (s', before ++ calls) := by
  induction h generalizing before with
  | nil =>
      rw [List.append_nil]
      exact .nil
  | @cons call calls s s₁ s₂ hcall _ ih =>
      have hrest := ih (before ++ [call])
      rw [List.append_assoc, List.singleton_append] at hrest
      refine .cons ?_ hrest
      rw [see_recorded, hcall]

/-! ### Walks -/

/-- The walk of a tree takes this tour. The calls that it makes are those of the tour in their
order, each at a place of its own. Each child node of an entered node is entered, and the cursor of
a call holds the nodes around the place as they were entered, with the indices that lead to it. The
walk leaves the very tree, and a visit the very node, if each call in it that put a new node in place
of one lies in a visit that was taken back. -/
structure Takes (rewriter : Rewriter σ) (s : σ) {root : Node} (tour : Tour [] root) : Prop where
  result : (rewriter.walk root s).1 = tour.result?
  records : rewriter.recorded.walk root (s, []) =
    (tour.result?, (rewriter.walk root s).2, tour.calls)
  once : (tour.calls.map Call.place).Nodup
  every : ∀ call ∈ tour.calls, call.moment = .enter → ∀ i c,
    call.entered.children[i]? = some (.node c) → ∃ below ∈ tour.calls,
      below.moment = .enter ∧ below.node = c ∧ below.cursor = ⟨call.entered, i⟩ :: call.cursor
  within : ∀ call ∈ tour.calls, call.cursor = [] ∨ call.Below tour.calls
  same : (rewriter.walk root s).1 = none ↔ tour.TakesBack
  reused : ∀ v ∈ tour.visits, (v.2.2.result? = none ↔ v.2.2.TakesBack) ∧
    (v = ⟨[], root, tour⟩ ∨ LeftIn tour.calls v)
  plain : (∀ v ∈ tour.visits, v.2.2.takenBack = false) →
    (tour.TakesBack ↔ ∀ call ∈ tour.calls, call.answer.new? = none)

/-- A walk from an accepted root takes a tour, if it comes to an end. It does if no levels are added
to the nodes that are entered. -/
theorem walk_takes_tour (rewriter : Rewriter σ) {root : Node}
    (haccepts : rewriter.accepts root = true) (s : σ) :
    (rewriter.AddsNoLevels → rewriter.Ends root s) ∧
      (rewriter.Ends root s → ∃ tour : Tour [] root, rewriter.Takes s tour) := by
  refine ⟨fun hlevels => ends_of_addsNoLevels hlevels root s, fun hends => ?_⟩
  obtain ⟨tour, s', hanswers⟩ := answers_of_ends haccepts hends
  have hwalk := walk_of_answers haccepts hanswers
  have hrecords : rewriter.recorded.accepts root = true := haccepts
  have hrecorded : rewriter.recorded.walk root (s, []) = (tour.result?, s', tour.calls) :=
    walk_of_answers hrecords (hanswers.recorded [])
  refine ⟨tour, ?_⟩
  constructor
  case result => rw [hwalk]
  case records => rw [hwalk, hrecorded]
  case once => exact tour.nodup_places
  case every => exact tour.enters_child
  case within => exact fun call hcall => (tour.below_of_mem call hcall).imp_left And.left
  case same =>
    rw [hwalk]
    exact tour.result_eq_none_iff
  case reused => exact fun v hv => ⟨v.2.2.result_eq_none_iff, tour.left_of_mem v hv⟩
  case plain => exact tour.takesBack_iff

/-- A rewriter that puts a mapping in place of a scalar when it enters it goes on below the mapping,
one level deeper than the tree was. -/
theorem walk_takes_tour_deeper :
    let scalar (text : String) : Node :=
      { kind := .yaml .scalar, lead := "", children := [.token ⟨.text, "", text⟩] }
    let rewriter : Rewriter Nat :=
      { enter := fun n _ entered =>
          if n = scalar "a" then
            (.other { kind := .yaml .mapping, lead := "", children := [scalar "b"] }, entered + 1)
          else (.shown, entered + 1)
        leave := fun n _ entered =>
          if n = scalar "b" then (.other (scalar "c"), entered) else (.shown, entered) }
    let root : Node :=
      { kind := .yaml .mapping
        lead := ""
        children := [scalar "x", .token ⟨.punct, "", ":"⟩, scalar "a"] }
    rewriter.walkWithin root.height root 0 = none ∧
      ∃ tour : Tour [] root, rewriter.Takes 0 tour ∧ tour.calls.map Call.place =
        [ (.enter, []), (.enter, [0]), (.leave, [0]), (.enter, [2]), (.enter, [2, 0]),
          (.leave, [2, 0]), (.leave, [2]), (.leave, []) ] := by
  intro scalar rewriter root
  have hends : rewriter.Ends root 0 := ⟨3, by decide⟩
  obtain ⟨tour, htour⟩ := (walk_takes_tour rewriter rfl 0).2 hends
  refine ⟨by decide, tour, htour, ?_⟩
  have hplaces : (rewriter.recorded.walkWithin 3 root (0, [])).map (fun r => r.2.2.map Call.place) =
      some [ (.enter, []), (.enter, [0]), (.leave, [0]), (.enter, [2]), (.enter, [2, 0]),
        (.leave, [2, 0]), (.leave, [2]), (.leave, []) ] := by
    decide
  obtain ⟨r, hr, hcalls⟩ := Option.map_eq_some_iff.1 hplaces
  have hrecords := htour.records
  rw [walk_eq hr] at hrecords
  rw [hrecords] at hcalls
  exact hcalls

/-- A rewriter that puts a node around the root when it enters it, and hands the root back when it
leaves that node. A call put a new node in place of one, and yet the walk leaves the very tree. -/
theorem walk_leaves_wrapped_root :
    let root : Node :=
      { kind := .yaml .scalar, lead := "", children := [.token ⟨.text, "", "a"⟩] }
    let wrapped : Node := { kind := .yaml .document, lead := "", children := [root] }
    let rewriter : Rewriter Unit :=
      { enter := fun _ cursor s => (if cursor.isRoot then .other wrapped else .shown, s)
        leave := fun _ cursor s => (if cursor.isRoot then .start else .shown, s) }
    rewriter.accepts root = true ∧ rewriter.Ends root () ∧
      ¬ ((rewriter.walk root ()).1 = none ↔
        ∀ call ∈ (rewriter.recorded.walk root ((), [])).2.2, call.answer.new? = none) := by
  intro root wrapped rewriter
  have hwalk : rewriter.walkWithin 2 root () = some (none, ()) := by decide
  have hcalls : (rewriter.recorded.walkWithin 2 root ((), [])).map
      (fun r => r.2.2.map fun call => call.answer.new?) =
        some [some wrapped, none, none, none] := by
    decide
  obtain ⟨r, hr, hcalls⟩ := Option.map_eq_some_iff.1 hcalls
  refine ⟨rfl, ⟨2, by rw [hwalk]; rfl⟩, ?_⟩
  rw [walk_eq hwalk, walk_eq hr]
  intro hsame
  have hnone : ∀ o ∈ r.2.2.map fun call => call.answer.new?, o = none := by
    simpa using hsame.1 rfl
  rw [hcalls] at hnone
  exact absurd (hnone (some wrapped) List.mem_cons_self) (Option.some_ne_none wrapped)

end Codemod.Tree.Rewriter
