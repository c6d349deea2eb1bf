import Codemod.Proofs.Java.Resolved
import Codemod.Proofs.Tree.Places

/-!
What attribution comes to at the places of a unit. It goes into each node in a context whose classes
are those that are declared around the place, and what stands at a place of the attributed unit is
the node, its children attributed, with what was found out in the context in which it was left.
-/

namespace Codemod.Tree

theorem withType_self {n : Node} {t : Option Java.TypeInfo} (h : n.type? = t) :
    ({ n with type? := t } : Node) = n := by
  cases n
  cases h
  rfl

/-- What attribution found out is not among the tokens of a node. -/
theorem tokens_untyped (n : Node) : n.untyped.tokens = n.tokens := by
  rw [Node.tokens, Node.tokens, children_untyped, untypedList_eq_map, List.filterMap_map]
  congr 1
  funext e
  cases e <;> rfl

/-- The place in the tree without what attribution found out. -/
def Cursor.untyped (cursor : Cursor) : Cursor :=
  cursor.map fun frame => ⟨frame.node.untyped, frame.index⟩

theorem Stands.untyped {root n : Node} {cursor : Cursor} (h : Stands root cursor n) :
    Stands root.untyped cursor.untyped n.untyped := by
  induction h with
  | root => exact .root
  | @child cursor parent n before behind _ hchildren ih =>
      have hchildren' : parent.untyped.children =
          before.map Element.untyped ++ .node n.untyped :: behind.map Element.untyped := by
        rw [children_untyped, untypedList_eq_map, hchildren, List.map_append]
        rfl
      have hplace := ih.child hchildren'
      rwa [List.length_map] at hplace

end Codemod.Tree

namespace Codemod.Java

open Codemod.Tree

/-! ### Places -/

/-- The ancestors of two places have the same kinds. -/
def SameKinds (cursor cursor' : Cursor) : Prop :=
  cursor'.ancestors.map Node.kind = cursor.ancestors.map Node.kind

theorem SameKinds.cons {cursor cursor' : Cursor} (h : SameKinds cursor cursor') {n n' : Node}
    (hkind : n'.kind = n.kind) (index index' : Nat) :
    SameKinds (⟨n, index⟩ :: cursor) (⟨n', index'⟩ :: cursor') := by
  rw [SameKinds] at h ⊢
  simp only [Cursor.ancestors, List.map_cons, hkind] at h ⊢
  rw [h]

theorem SameKinds.isAnonymous {cursor cursor' : Cursor} (h : SameKinds cursor cursor') :
    isAnonymous cursor' = isAnonymous cursor := by
  have hkinds : ∀ cursor : Cursor, Java.isAnonymous cursor =
      (cursor.ancestors.map Node.kind)[1]?.any fun kind => kind == .java .newClass := by
    intro cursor
    rw [Java.isAnonymous, List.getElem?_map, Option.any_map]
  rw [hkinds, hkinds, h]

theorem SameKinds.isBody {cursor cursor' : Cursor} (h : SameKinds cursor cursor') :
    cursor'.parent?.any isBody = cursor.parent?.any isBody := by
  have hkinds : ∀ cursor : Cursor, cursor.parent?.any Java.isBody =
      (cursor.ancestors.map Node.kind).head?.any fun kind =>
        kind == .java .classBody || kind == .java .enumBody := by
    intro cursor
    rw [Cursor.parent?, Cursor.ancestors, List.map_map, List.head?_map, Option.any_map,
      Option.any_map]
    rfl
  rw [hkinds, hkinds, h]

theorem sameKinds_untyped {cursor : Cursor} : SameKinds cursor cursor.untyped := by
  rw [SameKinds, Cursor.untyped, Cursor.ancestors, Cursor.ancestors, List.map_map, List.map_map,
    List.map_map]
  exact List.map_congr_left fun frame _ => kind_untyped frame.node

/-- The full names of the classes whose declarations are around a place, the innermost first. -/
def classesAround (package : String) : Cursor → List String
  | [] => []
  | frame :: rest =>
      let outer := classesAround package rest
      if frame.node.kind = .java .classDeclaration then
        match className? frame.node with
        | some simple => qualify (outer.head?.getD package) simple :: outer
        | none => outer
      else outer

theorem classesAround_class {package simple : String} {n : Node} {index : Nat} {cursor : Cursor}
    (hkind : n.kind = .java .classDeclaration) (hname : className? n = some simple) :
    classesAround package (⟨n, index⟩ :: cursor) =
      qualify ((classesAround package cursor).head?.getD package) simple ::
        classesAround package cursor := by
  simp only [classesAround, hkind, if_true, hname]

theorem classesAround_other {package : String} {n : Node} {index : Nat} {cursor : Cursor}
    (hkind : n.kind ≠ .java .classDeclaration) :
    classesAround package (⟨n, index⟩ :: cursor) = classesAround package cursor := by
  simp only [classesAround, if_neg hkind]

theorem className_untyped (n : Node) : className? n.untyped = className? n := by
  rw [className?, className?, firstIdentifier?, firstIdentifier?, tokens_untyped]

theorem classesAround_untyped (package : String) (cursor : Cursor) :
    classesAround package cursor.untyped = classesAround package cursor := by
  induction cursor with
  | nil => rfl
  | cons frame rest ih =>
      show classesAround package (⟨frame.node.untyped, frame.index⟩ :: Cursor.untyped rest) = _
      rw [classesAround, classesAround, ih, kind_untyped, className_untyped]

/-! ### Entering and leaving a node -/

/-- Attribution puts nothing in place of a node that it enters. -/
theorem enter_keeps (symbols : SymbolTable) (n : Node) (cursor : Cursor) (context : Context) :
    ((attributionHooks symbols).visitor.enter n cursor context).1 = none :=
  rfl

/-- What attribution finds out about a node when it leaves it. -/
def found? (symbols : SymbolTable) (n : Node) (cursor : Cursor) (context : Context) :
    Option TypeInfo :=
  ((attributionHooks symbols).visitor.leave n cursor context).1.bind Node.type?

section
variable {symbols : SymbolTable} {n : Node} {cursor : Cursor} {context : Context}

theorem leave_found :
    ((attributionHooks symbols).visitor.leave n cursor context).1 =
      (found? symbols n cursor context).map fun info => { n with type? := some info } := by
  rw [found?]
  cases hleft : ((attributionHooks symbols).visitor.leave n cursor context).1 with
  | none => rfl
  | some w =>
      obtain ⟨info, rfl, _⟩ := leave_attribution hleft
      rfl

theorem left_found (hnone : n.type? = none) :
    ((attributionHooks symbols).visitor.leave n cursor context).1.getD n =
      { n with type? := found? symbols n cursor context } := by
  rw [leave_found]
  cases found? symbols n cursor context with
  | none => exact (withType_self hnone).symm
  | some info => rfl

theorem visits_left (hnone : n.type? = none) {es : List Element} {changed : Bool} {context' : Context}
    (hswept : SweptAt (attributionHooks symbols).visitor.Visiting n cursor 0 n.children
      (context.enter n) es changed context') :
    (attributionHooks symbols).visitor.Visits cursor n context
      { n with
        children := es
        type? := found? symbols { n with children := es } cursor context' }
      ((attributionHooks symbols).visitor.leave { n with children := es } cursor context').2 := by
  have hleft : ({ n with children := es } : Node).type? = none := hnone
  have hvisits := Visitor.visits_of_swept (enter_keeps symbols) hswept
  simp only [left_found hleft] at hvisits
  exact hvisits

theorem found_class (hkind : n.kind = .java .classDeclaration) :
    found? symbols n cursor context = context.pop.scope.classes.head?.map .type := by
  rw [found?, leave_class hkind, leaveClass]
  cases context.pop.scope.classes <;> rfl

theorem found_method (hkind : n.kind = .java .methodDeclaration) :
    found? symbols n cursor context =
      if isAnonymous cursor = true then none
      else (context.pop.scope.currentClass?.bind (context.pop.scope.method? n)).map .method := by
  rw [found?, leave_method hkind, leaveMethod]
  show (if isAnonymous cursor = true then _ else _ : Option Node × Context).1.bind Node.type? = _
  split_ifs
  · rfl
  · cases context.pop.scope.currentClass?.bind (context.pop.scope.method? n) <;> rfl

theorem found_call (hkind : n.kind = .java .methodInvocation) :
    found? symbols n cursor context = resolveCall? symbols context n := by
  rw [found?, leave_visited hkind]
  show ((resolveCall? symbols context n).map fun info => { n with type? := some info }).bind
    Node.type? = _
  cases resolveCall? symbols context n <;> rfl

theorem after_class (hkind : n.kind = .java .classDeclaration) :
    ((attributionHooks symbols).visitor.leave n cursor context).2 =
      { context.pop with
        scope := { context.pop.scope with classes := context.pop.scope.classes.tail } } := by
  rw [leave_class hkind, leaveClass]
  cases hclasses : context.pop.scope.classes with
  | nil =>
      simp only [List.tail_nil]
      rw [← hclasses]
  | cons name outer => rfl

theorem after_method (hkind : n.kind = .java .methodDeclaration) :
    ((attributionHooks symbols).visitor.leave n cursor context).2 = context.pop := by
  rw [leave_method hkind, leaveMethod]
  show (if isAnonymous cursor = true then _ else _ : Option Node × Context).2 = _
  split_ifs
  · rfl
  · cases context.pop.scope.currentClass?.bind (context.pop.scope.method? n) <;> rfl

theorem after_variable (hkind : n.kind = .java .variableDeclaration) :
    ((attributionHooks symbols).visitor.leave n cursor context).2 =
      declareVariables symbols n cursor context := by
  rw [leave_visited hkind]
  rfl

theorem after_resource (hkind : n.kind = .java .resource) :
    ((attributionHooks symbols).visitor.leave n cursor context).2 = declareResource n context := by
  rw [leave_visited hkind]
  rfl

theorem found_other (hclass : n.kind ≠ .java .classDeclaration)
    (hmethod : n.kind ≠ .java .methodDeclaration) (hcall : n.kind ≠ .java .methodInvocation) :
    found? symbols n cursor context = none := by
  rw [found?, leave_silent hclass hmethod hcall]
  rfl

end

/-! ### Where attribution does nothing -/

/-- Attribution does something at nodes of this kind. -/
def acts : Tree.Kind → Bool
  | .java .classDeclaration | .java .methodDeclaration | .java .block | .java .tryStatement
  | .java .catchClause | .java .initializerBlock | .java .variableDeclaration | .java .resource
  | .java .methodInvocation => true
  | _ => false

theorem enter_idle {n : Node} (h : acts n.kind = false) (context : Context) :
    context.enter n = context := by
  rw [Context.enter]
  split <;> first | rfl | (rename_i hkind; rw [hkind] at h; cases h)

theorem leave_idle {symbols : SymbolTable} {n : Node} (h : acts n.kind = false) (cursor : Cursor)
    (context : Context) :
    (attributionHooks symbols).visitor.leave n cursor context = (none, context) := by
  simp only [Hooks.visitor, attributionHooks]
  split
  · rename_i kind hkind
    rw [hkind] at h
    split_ifs
    · split <;> first | rfl | cases h
    · rfl
  · rfl

/-- Attribution passes over trees without nodes at which it does something. -/
theorem visits_idle {symbols : SymbolTable} {n : Node}
    (h : n.Everywhere fun m => acts m.kind = false) (cursor : Cursor) (context : Context) :
    (attributionHooks symbols).visitor.Visits cursor n context n context := by
  induction n using Node.induction_on generalizing cursor with
  | step n ih =>
      obtain ⟨hn, hbelow⟩ := everywhere_iff.1 h
      have hswept : ∀ (es : List Element) (index : Nat), (∀ c, Element.node c ∈ es →
          Element.node c ∈ n.children) → ∃ changed,
            SweptAt (attributionHooks symbols).visitor.Visiting n cursor index es context es changed
              context := by
        intro es
        induction es with
        | nil => exact fun _ _ => ⟨_, .nil⟩
        | cons e es ihes =>
            intro index hes
            obtain ⟨changed, hrest⟩ := ihes (index + 1) fun c hc => hes c (List.mem_cons_of_mem _ hc)
            cases e with
            | token t => exact ⟨_, .token hrest⟩
            | node c =>
                have hc := hes c List.mem_cons_self
                have hfirst := ih c hc (hbelow c hc) (⟨n, index⟩ :: cursor)
                exact ⟨false || changed, .node hfirst hrest⟩
      obtain ⟨changed, hswept⟩ := hswept n.children 0 fun _ => id
      have henter : ((attributionHooks symbols).visitor.enter n cursor context).2 = context :=
        enter_idle hn context
      have hself : (⟨n.kind, n.lead, n.children, n.markers, n.type?⟩ : Node) = n := by
        cases n
        rfl
      rw [← henter] at hswept
      have hvisits := Visitor.visits_of_swept (fun _ _ _ => rfl) hswept
      simp only [henter, hself, leave_idle hn] at hvisits
      exact hvisits

/-! ### Visits at places of the same kinds -/

section
variable {symbols : SymbolTable} {cursor cursor' : Cursor}

theorem leave_sameKinds (h : SameKinds cursor cursor') (n : Node) (context : Context) :
    (attributionHooks symbols).visitor.leave n cursor' context =
      (attributionHooks symbols).visitor.leave n cursor context := by
  have hmethod : leaveMethod n cursor' context = leaveMethod n cursor context := by
    have hanonymous := h.isAnonymous
    rw [isAnonymous, isAnonymous] at hanonymous
    rw [leaveMethod, leaveMethod, hanonymous]
  have hvariables : declareVariables symbols n cursor' context =
      declareVariables symbols n cursor context := by
    rw [declareVariables, declareVariables, h.isBody]
  simp only [Hooks.visitor, attributionHooks, hmethod, hvariables]

theorem swept_sameKinds (h : SameKinds cursor cursor') {parent parent' : Node}
    (hkind : parent'.kind = parent.kind) {index : Nat} {es es' : List Element} {s s' : Context}
    {changed : Bool}
    (hswept : SweptAt (attributionHooks symbols).visitor.Visiting parent cursor index es s es' changed s')
    (hes : ∀ c, Element.node c ∈ es → ∀ {cursor cursor' s n' s'}, SameKinds cursor cursor' →
      (attributionHooks symbols).visitor.Visits cursor c s n' s' →
        (attributionHooks symbols).visitor.Visits cursor' c s n' s') :
    SweptAt (attributionHooks symbols).visitor.Visiting parent' cursor' index es s es' changed s' := by
  induction hswept with
  | nil => exact .nil
  | token _ ih => exact .token (ih fun c hc => hes c (List.mem_cons_of_mem _ hc))
  | node hn _ ih =>
      exact .node (hes _ List.mem_cons_self (h.cons hkind _ _) hn)
        (ih fun c hc => hes c (List.mem_cons_of_mem _ hc))

theorem visits_sameKinds {n n' : Node} {s s' : Context} (h : SameKinds cursor cursor')
    (hvisits : (attributionHooks symbols).visitor.Visits cursor n s n' s') :
    (attributionHooks symbols).visitor.Visits cursor' n s n' s' := by
  induction n using Node.induction_on generalizing cursor cursor' s n' s' with
  | step n ih =>
      obtain ⟨es', changed, t, hswept, hvisits'⟩ := Visitor.exists_visits (enter_keeps symbols) cursor n s
      obtain ⟨rfl, rfl⟩ := hvisits.unique hvisits'
      have hswept' := swept_sameKinds h rfl hswept fun c hc => ih c hc
      have hresult := Visitor.visits_of_swept (enter_keeps symbols) hswept'
      simp only [leave_sameKinds h] at hresult
      exact hresult

end

section
variable {symbols : SymbolTable} {parent parent' : Node} (hkind : parent'.kind = parent.kind)
  {cursor : Cursor} {index : Nat} {s s' : Context}
include hkind

theorem swept_kind {es es' : List Element} {changed : Bool}
    (h : SweptAt (attributionHooks symbols).visitor.Visiting parent cursor index es s es' changed s') :
    SweptAt (attributionHooks symbols).visitor.Visiting parent' cursor index es s es' changed s' :=
  swept_sameKinds (show SameKinds cursor cursor from rfl) hkind h fun _ _ _ _ _ _ _ =>
    visits_sameKinds

theorem visits_kind {n n' : Node}
    (h : (attributionHooks symbols).visitor.Visits (⟨parent, index⟩ :: cursor) n s n' s') :
    (attributionHooks symbols).visitor.Visits (⟨parent', index⟩ :: cursor) n s n' s' :=
  visits_sameKinds (SameKinds.cons rfl hkind index index) h

end

/-! ### Where attribution has come to -/

/-- The context in which attribution begins with a unit. -/
def Context.atUnit (symbols : SymbolTable) (unit : Node) : Context :=
  { scope := .ofUnit unit (symbols.classes.map ClassSymbol.name) }

/-- The names that a place of a unit can refer to. -/
def scopeAt (symbols : SymbolTable) (unit : Node) (cursor : Cursor) : Scope :=
  { Scope.ofUnit unit (symbols.classes.map ClassSymbol.name) with
    classes := classesAround (packageOf unit) cursor }

/-- Attribution of the unit has attributed the children of the node at the place, which has become
`v`, and leaves it in the context. -/
def LeftIn (symbols : SymbolTable) (unit : Node) (cursor : Cursor) (v : Node) (context : Context) :
    Prop :=
  (attributionHooks symbols).visitor.Finishes unit (.atUnit symbols unit) cursor v context

theorem children_of_leave {symbols : SymbolTable} {v n' : Node} {cursor : Cursor} {context : Context}
    (h : ((attributionHooks symbols).visitor.leave v cursor context).1 = some n') :
    n'.children = v.children := by
  obtain ⟨info, rfl, _⟩ := leave_attribution h
  rfl

theorem cursor_of_frames {cursor₀ cursor : Cursor}
    (h : List.Forall₂ (fun frame frame' =>
      frame.index = frame'.index ∧ frame'.node.untyped = frame.node.untyped) cursor₀ cursor)
    (huntyped : ∀ frame ∈ cursor₀, frame.node.untyped = frame.node) : cursor₀ = cursor.untyped := by
  induction h with
  | nil => rfl
  | @cons frame frame' rest rest' hframe _ ih =>
      obtain ⟨hself, hrest⟩ := List.forall_mem_cons.1 huntyped
      have hnode : frame.node = frame'.node.untyped := by rw [hframe.2, hself]
      show _ = (⟨frame'.node.untyped, frame'.index⟩ : Frame) :: Cursor.untyped rest'
      rw [ih hrest, ← hnode, ← hframe.1]

section
variable {symbols : SymbolTable} {cursor : Cursor} {n n' : Node} {s s' : Context}
  (h : (attributionHooks symbols).visitor.Visits cursor n s n' s')
include h

theorem untyped_of_visits : n'.untyped = n.untyped := by
  obtain ⟨_, htypes⟩ := h.related (fun _ _ _ => rfl)
    (R := fun _ => Types) fun hswept => leaves_attribution symbols hswept.swept
  exact htypes.1

theorem attributes_of_visits (hparsed : n.Everywhere Parsed) :
    Attributes symbols cursor n s n' s' := by
  obtain ⟨_, hattributes⟩ := h.related (fun _ _ _ => rfl) (leaves_attributing symbols)
  exact hattributes hparsed

end

/-- A node with its children visited is the same but for what attribution found out. -/
theorem untyped_of_swept {symbols : SymbolTable} {n : Node} {cursor : Cursor} {s s' : Context}
    {es' : List Element} {changed : Bool}
    (h : SweptAt (attributionHooks symbols).visitor.Visiting n cursor 0 n.children s es' changed s') :
    ({ n with children := es' } : Node).untyped = n.untyped := by
  have hlist : ∀ {index es s es' changed s'},
      SweptAt (attributionHooks symbols).visitor.Visiting n cursor index es s es' changed s' →
        Node.untypedList es' = Node.untypedList es := by
    intro index es s es' changed s' h
    induction h with
    | nil => rfl
    | token _ ih => rw [Node.untypedList, Node.untypedList, ih]
    | node hn _ ih =>
        rw [Node.untypedList, Node.untypedList, ih, Element.untyped, Element.untyped,
          untyped_of_visits hn]
  have huntyped := hlist h
  cases n
  rw [Node.untyped, Node.untyped, huntyped]

section
variable {source : String} {unit : Node} (hparse : parseUnit source = .ok unit)
  {symbols : SymbolTable} {cursor : Cursor}
include hparse

/-- At a place of an attributed unit stands the node that attribution left there, with what it found
out about it. -/
theorem leftIn_of_stands {n : Node} (h : Stands (attributeUnit symbols unit) cursor n) :
    ∃ v context, LeftIn symbols unit cursor.untyped v context ∧ v.type? = none ∧
      n = { v with type? := found? symbols v cursor.untyped context } := by
  obtain ⟨hunit, _⟩ := unit_of_parseUnit hparse
  have haccepts : (attributionHooks symbols).visitor.accepts unit = true := by
    simp [Hooks.visitor, hunit.kind]
  have henter : ∀ n cursor s, ((attributionHooks symbols).visitor.enter n cursor s).1 = none :=
    fun _ _ _ => rfl
  obtain ⟨es', changed, s₁, _, hvisits⟩ := Visitor.exists_visits henter [] unit (.atUnit symbols unit)
  have hresult := Visitor.walk_of_visits haccepts hvisits
  have hroot : attributeUnit symbols unit = _ := hresult
  rw [hroot] at h
  obtain ⟨cursor₀, v, context, hfinishes, hn, hframes⟩ := Visitor.finishes_of_stands
    (T := fun n n' => n'.untyped = n.untyped) (fun _ _ _ => rfl) children_of_leave untyped_of_visits
    hvisits h
  obtain ⟨m, t₀, es, below, hreaches, hswept, rfl⟩ := hfinishes
  obtain rfl : cursor₀ = cursor.untyped := by
    refine cursor_of_frames hframes fun frame hframe => untyped_eq_self fun l hl => ?_
    exact untyped_of_parseUnit hparse l (mem_preorder_trans hl (hreaches.stands.ancestor hframe))
  have hnone : m.type? = none := untyped_of_parseUnit hparse m hreaches.stands.mem
  exact ⟨_, context, ⟨m, t₀, es, below, hreaches, hswept, rfl⟩, hnone, hn.trans (left_found hnone)⟩

omit hparse in
theorem scope_of_entered {n : Node} {s : Context} (hn : Parsed n)
    (hscope : s.scope = scopeAt symbols unit cursor) (index : Nat) :
    (s.enter n).scope = scopeAt symbols unit (⟨n, index⟩ :: cursor) := by
  by_cases hclass : n.kind = .java .classDeclaration
  · obtain ⟨simple, hsimple⟩ := Option.isSome_iff_exists.1 (hn.regular.className hclass)
    have hname : (scopeAt symbols unit cursor).nameFor simple =
        qualify ((classesAround (packageOf unit) cursor).head?.getD (packageOf unit)) simple := by
      rw [Scope.nameFor, show (scopeAt symbols unit cursor).package = packageOf unit from
        (ofUnit_place unit _).1]
      rfl
    rw [scope_enter_class hclass hsimple, hscope, hname, Scope.enter, scopeAt, scopeAt,
      classesAround_class hclass hsimple]
  · rw [scope_enter hclass, hscope, scopeAt, scopeAt, classesAround_other hclass]

theorem scope_of_reaches {n : Node} {context : Context}
    (h : (attributionHooks symbols).visitor.Reaches unit (.atUnit symbols unit) cursor n context) :
    context.scope = scopeAt symbols unit cursor := by
  have hparsed := parsed_of_parseUnit hparse
  induction h with
  | root =>
      have hclasses : (Context.atUnit symbols unit).scope.classes = [] := (ofUnit_place unit _).2
      rw [scopeAt, classesAround, ← hclasses]
      rfl
  | @child cursor parent n before before' behind t t' changed hreaches hchildren hbefore ih =>
      have hparent : parent.Everywhere Parsed := fun m hm =>
        hparsed m (mem_preorder_trans hm hreaches.stands.mem)
      have hattributed : SweptAt (Attributing symbols) parent cursor 0 before (t.enter parent) before'
          changed t' := hbefore.imp fun _ _ _ _ _ _ hvisits => attributes_of_visits hvisits
      have hbelow : ∀ c, Element.node c ∈ before → c.Everywhere Parsed := fun c hc =>
        (everywhere_iff.1 hparent).2 c (by rw [hchildren]; exact List.mem_append_left _ hc)
      rw [scope_of_attributed hattributed hbelow]
      exact scope_of_entered (hparent _ (mem_preorder_self _)) ih before.length

/-- Attribution leaves a node with those classes in scope that are declared around it, the node
itself if it declares one among them. -/
theorem scope_of_leftIn {v : Node} {context : Context} (h : LeftIn symbols unit cursor v context)
    (index : Nat) :
    context.scope = scopeAt symbols unit (⟨v, index⟩ :: cursor) := by
  obtain ⟨n, t₀, es, below, hreaches, hswept, rfl⟩ := h
  have hn : n.Everywhere Parsed := fun m hm =>
    parsed_of_parseUnit hparse m (mem_preorder_trans hm hreaches.stands.mem)
  have hattributed : SweptAt (Attributing symbols) n cursor 0 n.children (t₀.enter n) es below
      context := hswept.imp fun _ _ _ _ _ _ hvisits => attributes_of_visits hvisits
  have hsame : className? { n with children := es } = className? n := by
    rw [← className_untyped, untyped_visited hattributed hn n.type?, className_untyped]
  rw [scope_of_attributed hattributed (everywhere_iff.1 hn).2,
    scope_of_entered (hn n (mem_preorder_self n)) (scope_of_reaches hparse hreaches) index,
    scopeAt, scopeAt, classesAround, classesAround, hsame]

end

end Codemod.Java
