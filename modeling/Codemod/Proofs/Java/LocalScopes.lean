import Codemod.Proofs.Java.InferredTypes

/-!
The frames of local variables on the way of attribution. At each place there is one frame for each
ancestor that opens one, the innermost in front, and one name for each class declaration around the
place. A frame holds what the node that opened it declares: its parameters or its exception, and the
variables of the declarations in it that stand in no inner frame. It ends with that node, so that the
frames behind a node are those in front of it, and a variable is found inside that node alone.
-/

namespace Codemod.Tree

variable {σ : Type}

namespace Visitor

variable {visitor : Visitor σ}

theorem state_of_visits {root root' : Node} {s s' : σ} (haccepts : visitor.accepts root = true)
    (h : visitor.Visits [] root s root' s') : (visitor.walk root s).2 = s' := by
  obtain ⟨o, ho, -⟩ := h root.height (Nat.le_refl _)
  rw [walk_of_visit haccepts ho]

theorem Reaches.sweeps {P : σ → σ → Prop} (hrefl : ∀ s, P s s)
    (htrans : ∀ {s t u}, P s t → P t u → P s u) {root parent : Node} {s t u : σ} {cursor : Cursor}
    (h : visitor.Reaches root s cursor parent t) {es es' behind : List Element} {changed : Bool}
    (hchildren : parent.children = es ++ behind)
    (hes : SweptAt visitor.Visiting parent cursor 0 es (visitor.enter parent cursor t).2 es' changed u)
    (hstep : ∀ c index v c' v', Element.node c ∈ es →
      visitor.Reaches root s (⟨parent, index⟩ :: cursor) c v →
        visitor.Visits (⟨parent, index⟩ :: cursor) c v c' v' → P v v') :
    P (visitor.enter parent cursor t).2 u := by
  -- The induction is on the children still to sweep, behind some that are swept.
  have hrest : ∀ (rest before before' rest' : List Element) (swept changed : Bool) (v : σ),
      before ++ rest = es →
        SweptAt visitor.Visiting parent cursor 0 before (visitor.enter parent cursor t).2 before' swept
          v →
        SweptAt visitor.Visiting parent cursor before.length rest v rest' changed u → P v u := by
    intro rest
    induction rest with
    | nil =>
        rintro before before' rest' swept changed v - - hrest
        cases hrest
        exact hrefl _
    | cons e rest ih =>
        rintro before before' rest' swept changed v hsplit hbefore hrest
        have hsplit' : (before ++ [e]) ++ rest = es := by simpa using hsplit
        have hlength : (before ++ [e]).length = before.length + 1 := by simp
        cases hrest with
        | @token _ token _ _ _ _ _ hrest =>
            have htoken : SweptAt visitor.Visiting parent cursor (0 + before.length) [.token token] v
                [.token token] false v := .token .nil
            rw [← hlength] at hrest
            exact ih _ _ _ _ _ v hsplit' (hbefore.append htoken) hrest
        | @node _ n n' _ _ _ w _ _ _ hn hrest =>
            have hnode : SweptAt visitor.Visiting parent cursor (0 + before.length) [.node n] v
                [.node n'] (false || false) w := .node (by rwa [Nat.zero_add]) .nil
            have hreaches : visitor.Reaches root s (⟨parent, before.length⟩ :: cursor) n v :=
              .child h (by rw [hchildren, ← hsplit, List.append_assoc]; rfl) hbefore
            have hmem : Element.node n ∈ es := hsplit ▸ List.mem_append_right _ List.mem_cons_self
            rw [← hlength] at hrest
            exact htrans (hstep _ _ _ _ _ hmem hreaches hn)
              (ih _ _ _ _ _ w hsplit' (hbefore.append hnode) hrest)
  exact hrest es [] [] es' false changed _ rfl .nil hes

theorem exists_reaches (henter : ∀ n cursor s, (visitor.enter n cursor s).1 = none) {root n : Node}
    {cursor : Cursor} (h : Stands root cursor n) (s : σ) : ∃ t, visitor.Reaches root s cursor n t := by
  induction h with
  | root => exact ⟨s, .root⟩
  | @child cursor parent n before behind _ hchildren ih =>
      obtain ⟨t, hparent⟩ := ih
      obtain ⟨before', changed, u, hbefore⟩ :=
        exists_swept henter parent cursor before 0 (visitor.enter parent cursor t).2
      exact ⟨u, .child hparent hchildren hbefore⟩

end Visitor

end Codemod.Tree

namespace Codemod.Java

open Codemod.Tree

/-! ### What is bound where -/

/-- The variables that attribution binds in the frame around a node when it leaves the node. -/
def boundVariables (symbols : SymbolTable) (n : Node) (cursor : Cursor) (context : Context) :
    List (String × TypeRef) :=
  match n.kind with
  | .java .variableDeclaration =>
      if cursor.parent?.any isBody then []
      else context.scope.declaredVariables n (typeOf symbols context)
  | .java .resource =>
      match n.firstChild? (.java .typeTree), firstIdentifier? n with
      | some tree, some name => [(name, context.scope.resolveTree tree)]
      | _, _ => []
  | _ => []

/-- Attribution of the unit binds the variable at the place or below it, in the frame around the
place. -/
def BoundBelow (symbols : SymbolTable) (unit : Node) (cursor : Cursor) (b : String × TypeRef) : Prop :=
  ∃ inner v context, LeftIn symbols unit (inner ++ cursor) v context ∧
    (∀ frame ∈ inner, opensFrame frame.node.kind = false) ∧
      b ∈ boundVariables symbols v (inner ++ cursor) context

/-- The node at the place declares the variable in its frame: as a parameter, as the exception that it
catches, or by a declaration in it that stands in no inner frame. -/
inductive DeclaredIn (symbols : SymbolTable) (unit n : Node) (cursor : Cursor) :
    String × TypeRef → Prop where
  | parameter {context : Context} {p : Node} {name : String}
      (h : (attributionHooks symbols).visitor.Reaches unit (.atUnit symbols unit) cursor n context)
      (hkind : n.kind = .java .methodDeclaration) (hp : p ∈ Scope.parametersOf n)
      (hname : declaredName? p = some name) :
      DeclaredIn symbols unit n cursor (name, context.scope.parameterType p)
  | caught {context : Context} {name : String}
      (h : (attributionHooks symbols).visitor.Reaches unit (.atUnit symbols unit) cursor n context)
      (hkind : n.kind = .java .catchClause) (hname : declaredName? n = some name) :
      DeclaredIn symbols unit n cursor
        (name, if n.hasToken "|" then .unknown else context.scope.childType n)
  | declaration {index : Nat} {b : String × TypeRef}
      (h : BoundBelow symbols unit (⟨n, index⟩ :: cursor) b) : DeclaredIn symbols unit n cursor b

/-- There is one frame for each node around the place that opens one, the innermost in front, with
variables that the node declares in it. -/
inductive Framed (symbols : SymbolTable) (unit : Node) : Cursor → List (Bindings TypeRef) → Prop where
  | top : Framed symbols unit [] []
  | opened {frame : Frame} {cursor : Cursor} {bound : Bindings TypeRef}
      {locals : List (Bindings TypeRef)} (h : Framed symbols unit cursor locals)
      (hopens : opensFrame frame.node.kind = true)
      (hbound : ∀ b ∈ bound, DeclaredIn symbols unit frame.node cursor b) :
      Framed symbols unit (frame :: cursor) (bound :: locals)
  | same {frame : Frame} {cursor : Cursor} {locals : List (Bindings TypeRef)}
      (h : Framed symbols unit cursor locals) (hopens : opensFrame frame.node.kind = false) :
      Framed symbols unit (frame :: cursor) locals

/-! ### Binding variables -/

theorem mem_put {bindings : Bindings TypeRef} {name : String} {type : TypeRef} {b : String × TypeRef}
    (h : b ∈ bindings.put name type) : b = (name, type) ∨ b ∈ bindings := by
  rcases List.mem_cons.1 h with rfl | h
  · exact .inl rfl
  · exact .inr (List.mem_filter.1 h).1

theorem mem_of_get {bindings : Bindings TypeRef} {name : String} {type : TypeRef}
    (h : bindings.get? name = some type) : (name, type) ∈ bindings := by
  obtain ⟨⟨name', type'⟩, hfind, rfl⟩ := Option.map_eq_some_iff.1 h
  have hname : name' = name := by simpa using List.find?_some hfind
  exact hname ▸ List.mem_of_find?_eq_some hfind

theorem mem_declareAll {declared : List (String × TypeRef)} {context : Context} {b : String × TypeRef}
    (h : b ∈ (declared.foldl (fun context v => context.declare v.1 v.2) context).locals.headD []) :
    b ∈ context.locals.headD [] ∨ b ∈ declared := by
  induction declared generalizing context with
  | nil => exact .inl h
  | cons v declared ih =>
      rcases ih h with h | h
      · cases hlocals : context.locals with
        | nil =>
            simp only [Context.declare, hlocals] at h
            exact .inl h
        | cons frame rest =>
            simp only [Context.declare, hlocals] at h
            rcases mem_put h with rfl | h
            · exact .inr List.mem_cons_self
            · exact .inl h
      · exact .inr (List.mem_cons_of_mem _ h)

theorem mem_foldl_put {scope : Scope} {b : String × TypeRef} {ps : List Node}
    {frame : Bindings TypeRef}
    (h : b ∈ ps.foldl (fun frame p =>
      match declaredName? p with
      | some name => frame.put name (scope.parameterType p)
      | none => frame) frame) :
    b ∈ frame ∨ ∃ p ∈ ps, ∃ name, declaredName? p = some name ∧ b = (name, scope.parameterType p) := by
  induction ps generalizing frame with
  | nil => exact .inl h
  | cons p ps ih =>
      rw [List.foldl_cons] at h
      rcases ih h with h | ⟨q, hq, hb⟩
      · cases hp : declaredName? p with
        | none =>
            rw [hp] at h
            exact .inl h
        | some name =>
            rw [hp] at h
            rcases mem_put h with rfl | h
            · exact .inr ⟨p, List.mem_cons_self, name, hp, rfl⟩
            · exact .inl h
      · exact .inr ⟨q, List.mem_cons_of_mem _ hq, hb⟩

theorem mem_parameterFrame {scope : Scope} {n : Node} {b : String × TypeRef}
    (h : b ∈ parameterFrame scope n) :
    ∃ p ∈ Scope.parametersOf n, ∃ name, declaredName? p = some name ∧
      b = (name, scope.parameterType p) :=
  (mem_foldl_put h).resolve_left List.not_mem_nil

/-! ### One visit -/

section
variable {symbols : SymbolTable} {unit : Node} {cursor : Cursor} {n n' : Node} {s s' : Context}

theorem locals_leave (h : opensFrame n.kind = false) :
    ((attributionHooks symbols).visitor.leave n cursor s).2.locals =
      ((boundVariables symbols n cursor s).foldl (fun context v => context.declare v.1 v.2) s).locals := by
  by_cases hvariable : n.kind = .java .variableDeclaration
  · rw [after_variable hvariable, declareVariables, boundVariables, hvariable]
    split_ifs <;> rfl
  by_cases hresource : n.kind = .java .resource
  · rw [after_resource hresource, declareResource, boundVariables, hresource]
    cases n.firstChild? (.java .typeTree) <;> cases firstIdentifier? n <;> rfl
  have hnone : boundVariables symbols n cursor s = [] := by
    rw [boundVariables]
    split <;> first | contradiction | rfl
  rw [hnone]
  by_cases hcall : n.kind = .java .methodInvocation
  · rw [leave_visited hcall]
    rfl
  · have hidle : acts n.kind = false := by
      unfold acts
      split <;> simp_all [opensFrame]
    rw [leave_idle hidle]
    rfl

theorem locals_of_visits (hopens : opensFrame n.kind = true)
    (h : (attributionHooks symbols).visitor.Visits cursor n s n' s') : s'.locals = s.locals := by
  obtain ⟨es', changed, t, hswept, hvisits⟩ := Visitor.exists_visits (enter_keeps symbols) cursor n s
  obtain ⟨-, rfl⟩ := h.unique hvisits
  have hchildren := extends_swept hswept fun _ _ _ _ _ _ hvisits => extends_visits hvisits
  obtain ⟨frame, hlocals, -⟩ := locals_enter_opens hopens s
  have henter : ((attributionHooks symbols).visitor.enter n cursor s).2 = s.enter n := rfl
  rw [henter] at hchildren
  rw [locals_leave_opens (n := { n with children := es' }) hopens, hchildren.outer, hlocals,
    List.tail_cons]

/-- The frame in which a context ends has no variables but those of another context and some new
ones. -/
def Gains (P : String × TypeRef → Prop) (s t : Context) : Prop :=
  ∀ b ∈ t.locals.headD [], b ∈ s.locals.headD [] ∨ P b

theorem Gains.trans {P : String × TypeRef → Prop} {s t u : Context} (h : Gains P s t)
    (h' : Gains P t u) : Gains P s u := fun b hb =>
  (h' b hb).elim (h b) .inr

theorem BoundBelow.outward {frame : Frame} {b : String × TypeRef}
    (h : BoundBelow symbols unit (frame :: cursor) b) (hopens : opensFrame frame.node.kind = false) :
    BoundBelow symbols unit cursor b := by
  obtain ⟨inner, v, context, hleft, hinner, hb⟩ := h
  have hplace : inner ++ frame :: cursor = (inner ++ [frame]) ++ cursor := by simp
  rw [hplace] at hleft hb
  refine ⟨inner ++ [frame], v, context, hleft, fun other hother => ?_, hb⟩
  rcases List.mem_append.1 hother with hother | hother
  · exact hinner other hother
  · rwa [List.mem_singleton.1 hother]

theorem gains_of_visits
    (hreaches : (attributionHooks symbols).visitor.Reaches unit (.atUnit symbols unit) cursor n s)
    (hvisits : (attributionHooks symbols).visitor.Visits cursor n s n' s')
    (hopens : opensFrame n.kind = false) : Gains (BoundBelow symbols unit cursor) s s' := by
  induction n using Node.induction_on generalizing cursor s n' s' with
  | step n ih =>
      obtain ⟨es', changed, t, hswept, hleft⟩ := Visitor.exists_visits (enter_keeps symbols) cursor n s
      obtain ⟨-, rfl⟩ := hvisits.unique hleft
      have henter : ((attributionHooks symbols).visitor.enter n cursor s).2 = s := enter_other hopens s
      have hchildren : Gains (BoundBelow symbols unit cursor) s t := by
        rw [← henter]
        refine hreaches.sweeps (P := Gains (BoundBelow symbols unit cursor)) (fun _ _ => .inl)
          (fun h h' => h.trans h') (List.append_nil _).symm hswept fun c index v c' v' hc hc' hvisits => ?_
        cases hchild : opensFrame c.kind with
        | true =>
            rw [Gains, locals_of_visits hchild hvisits]
            exact fun _ => .inl
        | false => exact fun b hb => (ih c hc hc' hvisits hchild b hb).imp_right (·.outward hopens)
      refine hchildren.trans fun b hb => ?_
      rw [locals_leave (n := { n with children := es' }) hopens] at hb
      refine (mem_declareAll hb).imp_right fun hb => ?_
      exact ⟨[], _, t, ⟨n, s, es', changed, hreaches, hswept, rfl⟩, fun _ h => absurd h List.not_mem_nil,
        hb⟩

/-! ### The frames at a place -/

theorem Framed.gains {locals locals' : List (Bindings TypeRef)} (h : Framed symbols unit cursor locals)
    (houter : locals'.tail = locals.tail) (hlength : locals'.length = locals.length)
    (hnew : ∀ b ∈ locals'.headD [], b ∈ locals.headD [] ∨ BoundBelow symbols unit cursor b) :
    Framed symbols unit cursor locals' := by
  induction h with
  | top =>
      rw [List.length_eq_zero_iff.1 hlength]
      exact .top
  | @opened frame cursor bound locals h hopens hbound ih =>
      cases locals' with
      | nil => cases hlength
      | cons bound' locals' =>
          obtain rfl : locals' = locals := houter
          exact .opened h hopens fun b hb => (hnew b hb).elim (hbound b) .declaration
  | same _ hopens ih =>
      exact .same (ih houter hlength fun b hb => (hnew b hb).imp_right (·.outward hopens)) hopens

section
variable
  (hreaches : (attributionHooks symbols).visitor.Reaches unit (.atUnit symbols unit) cursor n s)
include hreaches

theorem declared_of_enter (hopens : opensFrame n.kind = true) :
    ∃ own : Bindings TypeRef, (s.enter n).locals = own :: s.locals ∧
      ∀ b ∈ own, DeclaredIn symbols unit n cursor b := by
  have hempty : ∀ b ∈ ([] : Bindings TypeRef), DeclaredIn symbols unit n cursor b :=
    fun _ h => absurd h List.not_mem_nil
  rw [Context.enter]
  split
  · exact ⟨_, rfl, hempty⟩
  · rename_i hkind
    refine ⟨_, rfl, fun b hb => ?_⟩
    obtain ⟨p, hp, name, hname, rfl⟩ := mem_parameterFrame hb
    exact .parameter hreaches hkind hp hname
  · rename_i hkind
    refine ⟨_, rfl, fun b hb => ?_⟩
    rw [catchFrame] at hb
    cases hname : declaredName? n with
    | none =>
        rw [hname] at hb
        cases hb
    | some name =>
        rw [hname] at hb
        obtain rfl := List.mem_singleton.1 hb
        exact .caught hreaches hkind hname
  · exact ⟨_, rfl, hempty⟩
  · exact ⟨_, rfl, hempty⟩
  · exact ⟨_, rfl, hempty⟩
  · unfold opensFrame at hopens
    split at hopens <;> contradiction

variable (hframed : Framed symbols unit cursor s.locals)
include hframed

theorem framed_inside {before before' behind : List Element} {changed : Bool}
    (hchildren : n.children = before ++ behind)
    (hbefore : SweptAt (attributionHooks symbols).visitor.Visiting n cursor 0 before (s.enter n) before'
      changed s') (index : Nat) :
    Framed symbols unit (⟨n, index⟩ :: cursor) s'.locals := by
  have hextends := extends_swept hbefore fun _ _ _ _ _ _ hvisits => extends_visits hvisits
  have hgains : Gains (fun b => ∃ i, BoundBelow symbols unit (⟨n, i⟩ :: cursor) b) (s.enter n) s' := by
    refine hreaches.sweeps (P := Gains fun b => ∃ i, BoundBelow symbols unit (⟨n, i⟩ :: cursor) b)
      (fun _ _ => .inl) (fun h h' => h.trans h') hchildren hbefore fun c i v c' v' hc hc' hvisits => ?_
    cases hchild : opensFrame c.kind with
    | true =>
        rw [Gains, locals_of_visits hchild hvisits]
        exact fun _ => .inl
    | false =>
        exact fun b hb => (gains_of_visits hc' hvisits hchild b hb).imp_right fun h => ⟨i, h⟩
  cases hopens : opensFrame n.kind with
  | true =>
      obtain ⟨own, hlocals, hown⟩ := declared_of_enter hreaches hopens
      have houter := hextends.outer
      have hlength := hextends.length
      rw [Gains, hlocals] at hgains
      rw [hlocals] at houter hlength
      cases hlocals' : s'.locals with
      | nil =>
          rw [hlocals'] at hlength
          cases hlength
      | cons bound locals' =>
          rw [hlocals'] at houter hgains
          obtain rfl : locals' = s.locals := houter
          exact .opened hframed hopens fun b hb =>
            (hgains b hb).elim (hown b) fun ⟨i, h⟩ => .declaration h
  | false =>
      rw [enter_other hopens] at hextends hgains
      exact .same (hframed.gains hextends.outer hextends.length fun b hb =>
        (hgains b hb).imp_right fun ⟨i, h⟩ => h.outward hopens) hopens

theorem framed_left (hvisits : (attributionHooks symbols).visitor.Visits cursor n s n' s') :
    Framed symbols unit cursor s'.locals := by
  cases hopens : opensFrame n.kind with
  | true => rwa [locals_of_visits hopens hvisits]
  | false =>
      have hextends := extends_visits hvisits
      exact hframed.gains hextends.outer hextends.length (gains_of_visits hreaches hvisits hopens)

end

theorem framed_of_reaches
    (h : (attributionHooks symbols).visitor.Reaches unit (.atUnit symbols unit) cursor n s) :
    Framed symbols unit cursor s.locals := by
  induction h with
  | root => exact .top
  | child hparent hchildren hbefore ih => exact framed_inside hparent ih hchildren hbefore _

end

/-! ### What frames say about lookups -/

section
variable {symbols : SymbolTable} {unit : Node} {cursor : Cursor} {locals : List (Bindings TypeRef)}

theorem Framed.length (h : Framed symbols unit cursor locals) :
    locals.length = cursor.countP fun frame => opensFrame frame.node.kind := by
  induction h with
  | top => rfl
  | opened _ hopens _ ih => simp only [List.length_cons, List.countP_cons, ih, hopens, if_true]
  | same _ hopens ih => simp [ih, hopens]

theorem Framed.declared (h : Framed symbols unit cursor locals) {name : String} {type : TypeRef}
    (hfound : locals.findSome? (·.get? name) = some type) :
    ∃ inner n index outer, cursor = inner ++ ⟨n, index⟩ :: outer ∧ opensFrame n.kind = true ∧
      DeclaredIn symbols unit n outer (name, type) := by
  induction h with
  | top => cases hfound
  | @opened frame cursor bound locals _ hopens hbound ih =>
      rw [List.findSome?_cons] at hfound
      cases hget : bound.get? name with
      | some type' =>
          rw [hget] at hfound
          obtain rfl : type' = type := Option.some.inj hfound
          exact ⟨[], frame.node, frame.index, cursor, rfl, hopens, hbound _ (mem_of_get hget)⟩
      | none =>
          rw [hget] at hfound
          obtain ⟨inner, n, index, outer, rfl, hdeclared⟩ := ih hfound
          exact ⟨frame :: inner, n, index, outer, rfl, hdeclared⟩
  | @same frame _ _ _ _ ih =>
      obtain ⟨inner, n, index, outer, rfl, hdeclared⟩ := ih hfound
      exact ⟨frame :: inner, n, index, outer, rfl, hdeclared⟩

end

/-- The context has one frame for each node around the place that opens one, and one name for each class
declaration around it, its full name. A lookup in it finds a variable that a node around the place
declares in its frame, or else a field of a class around the place. -/
structure Around (symbols : SymbolTable) (unit : Node) (cursor : Cursor) (context : Context) : Prop where
  frames : context.locals.length = cursor.countP fun frame => opensFrame frame.node.kind
  classes : context.scope.classes = classesAround (packageOf unit) cursor
  names : context.scope.classes.length =
    cursor.countP fun frame => frame.node.kind == .java .classDeclaration
  lookup : ∀ name type, context.variableType? symbols name = some type →
    (∃ inner n index outer, cursor = inner ++ ⟨n, index⟩ :: outer ∧ opensFrame n.kind = true ∧
      DeclaredIn symbols unit n outer (name, type)) ∨
    context.local? name = none ∧
      ∃ c ∈ classesAround (packageOf unit) cursor, symbols.field? c name = some type

section
variable {symbols : SymbolTable} {unit n : Node} {cursor : Cursor} {context : Context}

theorem length_classesAround {package : String}
    (h : ∀ frame ∈ cursor, frame.node.kind = .java .classDeclaration →
      (className? frame.node).isSome = true) :
    (classesAround package cursor).length =
      cursor.countP fun frame => frame.node.kind == .java .classDeclaration := by
  induction cursor with
  | nil => rfl
  | cons frame rest ih =>
      obtain ⟨hframe, hrest⟩ := List.forall_mem_cons.1 h
      by_cases hclass : frame.node.kind = .java .classDeclaration
      · obtain ⟨simple, hname⟩ := Option.isSome_iff_exists.1 (hframe hclass)
        rw [classesAround_class hclass hname, List.length_cons, ih hrest,
          List.countP_cons_of_pos (by simp [hclass])]
      · rw [classesAround_other hclass, ih hrest, List.countP_cons_of_neg (by simp [hclass])]

theorem around_of_framed (hframed : Framed symbols unit cursor context.locals)
    (hscope : context.scope = scopeAt symbols unit cursor)
    (hnames : ∀ frame ∈ cursor, frame.node.kind = .java .classDeclaration →
      (className? frame.node).isSome = true) : Around symbols unit cursor context where
  frames := hframed.length
  classes := by rw [hscope, scopeAt]
  names := by rw [hscope, scopeAt, length_classesAround hnames]
  lookup := by
    intro name type hfound
    rw [Context.variableType?] at hfound
    cases hlocal : context.local? name with
    | some type' =>
        rw [show context.locals.findSome? (·.get? name) = some type' from hlocal] at hfound
        obtain rfl : type' = type := Option.some.inj hfound
        exact .inl (hframed.declared hlocal)
    | none =>
        rw [show context.locals.findSome? (·.get? name) = none from hlocal, hscope] at hfound
        obtain ⟨c, hc, hfield⟩ := List.exists_of_findSome?_eq_some hfound
        exact .inr ⟨rfl, c, hc, hfield⟩

variable {source : String} (hparse : parseUnit source = .ok unit)
include hparse

theorem className_of_stands (h : Stands unit cursor n) (hkind : n.kind = .java .classDeclaration) :
    (className? n).isSome = true :=
  (parsed_of_parseUnit hparse n h.mem).regular.className hkind

theorem className_of_ancestor (h : Stands unit cursor n) {frame : Frame} (hframe : frame ∈ cursor)
    (hkind : frame.node.kind = .java .classDeclaration) : (className? frame.node).isSome = true :=
  (parsed_of_parseUnit hparse _ (h.ancestor hframe)).regular.className hkind

section
variable {symbols : SymbolTable} {es : List Element} {changed : Bool} {context' : Context}
  (hreaches : (attributionHooks symbols).visitor.Reaches unit (.atUnit symbols unit) cursor n context)
include hreaches

theorem around_entered : Around symbols unit cursor context :=
  around_of_framed (framed_of_reaches hreaches) (scope_of_reaches hparse hreaches)
    fun _ hframe => className_of_ancestor hparse hreaches.stands hframe

variable (hswept : SweptAt (attributionHooks symbols).visitor.Visiting n cursor 0 n.children
  (context.enter n) es changed context')
include hswept

theorem around_inside (index : Nat) : Around symbols unit (⟨n, index⟩ :: cursor) context' := by
  have hscope := scope_of_leftIn hparse ⟨n, context, es, changed, hreaches, hswept, rfl⟩ index
  have hsame : classesAround (packageOf unit) (⟨{ n with children := es }, index⟩ :: cursor) =
      classesAround (packageOf unit) (⟨n, index⟩ :: cursor) := by
    rw [classesAround, classesAround, ← className_untyped { n with children := es },
      untyped_of_swept hswept, className_untyped]
  rw [scopeAt, hsame] at hscope
  have hframed := framed_of_reaches hreaches
  refine around_of_framed (framed_inside hreaches hframed (List.append_nil _).symm hswept index)
    hscope fun frame hframe => ?_
  rcases List.mem_cons.1 hframe with rfl | hframe
  · exact className_of_stands hparse hreaches.stands
  · exact className_of_ancestor hparse hreaches.stands hframe

theorem around_behind : Around symbols unit cursor
    ((attributionHooks symbols).visitor.leave { n with children := es } cursor context').2 := by
  have hvisits := Visitor.visits_of_swept (enter_keeps symbols) hswept
  have hbelow : n.Everywhere Parsed := fun m hm =>
    parsed_of_parseUnit hparse m (mem_preorder_trans hm hreaches.stands.mem)
  refine around_of_framed (framed_left hreaches (framed_of_reaches hreaches) hvisits) ?_
    fun _ hframe => className_of_ancestor hparse hreaches.stands hframe
  exact (attributes_of_visits hvisits hbelow).scope.trans (scope_of_reaches hparse hreaches)

end

theorem scopes_at_end (symbols : SymbolTable) :
    ((attributionHooks symbols).visitor.walk unit (.atUnit symbols unit)).2.locals = [] ∧
      ((attributionHooks symbols).visitor.walk unit (.atUnit symbols unit)).2.scope.classes = [] := by
  have hkind := (unit_of_parseUnit hparse).1.kind
  have haccepts : (attributionHooks symbols).visitor.accepts unit = true := by
    simp [Hooks.visitor, hkind]
  obtain ⟨es, changed, t, hswept, hvisits⟩ :=
    Visitor.exists_visits (enter_keeps symbols) [] unit (.atUnit symbols unit)
  rw [Visitor.state_of_visits haccepts hvisits]
  have hframed := framed_left .root .top hvisits
  have hscope := (attributes_of_visits hvisits (parsed_of_parseUnit hparse)).scope
  refine ⟨List.length_eq_zero_iff.1 hframed.length, ?_⟩
  rw [hscope]
  exact (ofUnit_place unit _).2

/-- On the way of attribution through a unit, the frames of variables and the names of classes are at
each place those of the nodes around it: when a node is entered, inside it when its children have been
visited, and behind it, where the frames are those with which it was entered if it opens one. At the end
there are none. So a lookup finds no variable that was declared in a frame of a node which is not around
the place of the lookup. -/
theorem local_scopes (symbols : SymbolTable) :
    let visitor := (attributionHooks symbols).visitor
    let start := Context.atUnit symbols unit
    (∀ cursor n, Stands unit cursor n → ∃ context v context', visitor.Reaches unit start cursor n context ∧
      LeftIn symbols unit cursor v context' ∧ v.untyped = n.untyped) ∧
    (∀ cursor n context, visitor.Reaches unit start cursor n context →
      Around symbols unit cursor context ∧
      ∀ v context', LeftIn symbols unit cursor v context' →
        let behind := (visitor.leave v cursor context').2
        (∀ index, Around symbols unit (⟨n, index⟩ :: cursor) context') ∧
        Around symbols unit cursor behind ∧
        (opensFrame n.kind = true → behind.locals = context.locals)) ∧
    (visitor.walk unit start).2.locals = [] ∧ (visitor.walk unit start).2.scope.classes = [] := by
  intro visitor start
  refine ⟨fun cursor n hn => ?_, fun cursor n context hreaches =>
    ⟨around_entered hparse hreaches, fun v context' hleft => ?_⟩, scopes_at_end hparse symbols⟩
  · obtain ⟨context, hreaches⟩ := Visitor.exists_reaches (enter_keeps symbols) hn start
    obtain ⟨es, changed, context', hswept⟩ :=
      Visitor.exists_swept (enter_keeps symbols) n cursor n.children 0 (context.enter n)
    exact ⟨context, _, context', hreaches, ⟨n, context, es, changed, hreaches, hswept, rfl⟩,
      untyped_of_swept hswept⟩
  · obtain ⟨n', t, es, changed, hreaches', hswept, rfl⟩ := hleft
    obtain ⟨rfl, rfl⟩ := hreaches.unique hreaches'
    have hvisits := Visitor.visits_of_swept (enter_keeps symbols) hswept
    exact ⟨around_inside hparse hreaches hswept, around_behind hparse hreaches hswept,
      fun hopens => locals_of_visits hopens hvisits⟩

end

/-- Behind a block in the body of a method there are three frames, of the class, the method and its
body: the block has taken its own with it. -/
theorem local_scopes_block :
    let source := "class A \x7b void f(int p) \x7b \x7b int x = p; \x7d g(p); \x7d \x7d"
    ∃ unit, parseUnit source = .ok unit ∧
      let symbols := SymbolTable.ofUnits [unit]
      ∃ cursor call context, call.bareText = "g(p)" ∧
        (attributionHooks symbols).visitor.Reaches unit (.atUnit symbols unit) cursor call context ∧
          context.locals.length = 3 ∧ context.scope.classes = ["A"] := by
  intro source
  have hparses : (parseUnit source).toOption.any (fun unit =>
      (placeFrom [] unit [0, 2, 1, 3, 2, 0]).any fun (cursor, call) =>
        call.bareText == "g(p)" &&
          cursor.countP (fun frame => opensFrame frame.node.kind) == 3 &&
            classesAround (packageOf unit) cursor == ["A"]) = true := by
    decide +kernel
  obtain ⟨unit, hparse, hplace⟩ := exists_ok_of_any hparses
  simp only [Bool.and_eq_true, Option.any_eq_true, Prod.exists, beq_iff_eq] at hplace
  obtain ⟨cursor, call, hcall, ⟨htext, hframes⟩, hclasses⟩ := hplace
  obtain ⟨hreached, haround, -⟩ := local_scopes hparse (.ofUnits [unit])
  obtain ⟨context, -, -, hreaches, -⟩ := hreached cursor call (stands_of_placeFrom .root hcall)
  obtain ⟨⟨hlength, hnames, -, -⟩, -⟩ := haround cursor call context hreaches
  exact ⟨unit, hparse, cursor, call, context, htext, hreaches, hlength.trans hframes,
    hnames.trans hclasses⟩

end Codemod.Java
