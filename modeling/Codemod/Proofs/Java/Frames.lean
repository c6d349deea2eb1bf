import Codemod.Proofs.Java.Places

/-!
Which variables are in scope where. A node of some kinds opens a frame, which ends with it, and a
declaration binds its names in the innermost frame. So a visit leaves all frames but the innermost as
they were, and in that one what is bound to other names than those declared in it. A name stays bound
to its type from its declaration on, until the frame ends or another declaration takes the name.
-/

namespace Codemod.Java

open Codemod.Tree

/-! ### Names -/

/-- A node of this kind opens a frame of variables, which ends with the node. -/
def opensFrame : Tree.Kind → Bool
  | .java .classDeclaration | .java .methodDeclaration | .java .catchClause | .java .block
  | .java .tryStatement | .java .initializerBlock => true
  | _ => false

/-- The names that are bound in the frame of a node from the beginning. -/
def frameNames (n : Node) : List String :=
  match n.kind with
  | .java .methodDeclaration => (Scope.parametersOf n).filterMap declaredName?
  | .java .catchClause => (declaredName? n).toList
  | _ => []

/-- The names of the variables that a declaration declares. Those of a class body are fields, which no
frame holds. -/
def variableNames (inBody : Bool) (n : Node) : List String :=
  match n.kind with
  | .java .variableDeclaration =>
      if inBody then []
      else
        (((n.firstChild? (.java .declarators)).map Node.childNodes).getD []).filterMap
          fun declared => declared.tokens.head?.map Token.text
  | .java .resource => (firstIdentifier? n).toList
  | _ => []

mutual

/-- The names that a node declares in the frame around it. -/
def declaredNames (inBody : Bool) : Node → List String
  | n@⟨kind, _, children, _, _⟩ =>
      if opensFrame kind then []
      else variableNames inBody n ++ declaredNamesList (isBody n) children

/-- The names that a child declares. -/
def declaredNamesElement (inBody : Bool) : Element → List String
  | .node n => declaredNames inBody n
  | .token _ => []

/-- The names that some children declare. -/
def declaredNamesList (inBody : Bool) : List Element → List String
  | [] => []
  | e :: es => declaredNamesElement inBody e ++ declaredNamesList inBody es

end

/-- A local variable: that of the innermost frame that has one of the name. -/
def Context.local? (context : Context) (name : String) : Option TypeRef :=
  context.locals.findSome? (·.get? name)

section
variable {n : Node} {inBody : Bool}

theorem declaredNames_opens (h : opensFrame n.kind = true) : declaredNames inBody n = [] := by
  cases n
  exact if_pos h

theorem declaredNames_other (h : opensFrame n.kind = false) :
    declaredNames inBody n =
      variableNames inBody n ++ declaredNamesList (isBody n) n.children := by
  cases n
  exact if_neg (by simpa using h)

theorem variableNames_inBody : variableNames inBody n ⊆ variableNames false n := by
  rw [variableNames, variableNames]
  cases inBody with
  | false => exact List.Subset.refl _
  | true =>
      split
      · exact List.nil_subset _
      · exact List.Subset.refl _
      · exact List.Subset.refl _

end

/-! ### What attribution found out is no part of the names -/

theorem variableNames_untyped (inBody : Bool) (n : Node) :
    variableNames inBody n.untyped = variableNames inBody n := by
  have hdeclared : (fun declared : Node => declared.tokens.head?.map Token.text) ∘ Node.untyped =
      fun declared => declared.tokens.head?.map Token.text := by
    funext declared
    rw [Function.comp_apply, tokens_untyped]
  have hlist : ((n.firstChild? (.java .declarators)).map Node.untyped).map Node.childNodes =
      (n.firstChild? (.java .declarators)).map fun list => list.childNodes.map Node.untyped := by
    rw [Option.map_map]
    congr 1
    funext list
    exact respelling_untyped.childNodes list
  rw [variableNames, variableNames, kind_untyped, respelling_untyped.firstChild, hlist,
    firstIdentifier?, firstIdentifier?, tokens_untyped]
  split
  · split_ifs
    · rfl
    · cases n.firstChild? (.java .declarators) with
      | none => rfl
      | some list =>
          rw [Option.map_some, Option.map_some, Option.getD_some, Option.getD_some,
            List.filterMap_map, hdeclared]
  · rfl
  · rfl

theorem declaredNamesList_untyped_of {inBody : Bool} {es : List Element}
    (hes : ∀ c, Element.node c ∈ es → declaredNames inBody c.untyped = declaredNames inBody c) :
    declaredNamesList inBody (Node.untypedList es) = declaredNamesList inBody es := by
  induction es with
  | nil => rfl
  | cons e es ih =>
      rw [Node.untypedList, declaredNamesList, declaredNamesList,
        ih fun c hc => hes c (List.mem_cons_of_mem _ hc)]
      cases e with
      | token t => rfl
      | node c =>
          congr 1
          exact hes c List.mem_cons_self

theorem declaredNames_untyped (inBody : Bool) (n : Node) :
    declaredNames inBody n.untyped = declaredNames inBody n := by
  induction n using Node.induction_on generalizing inBody with
  | step n ih =>
      cases hopens : opensFrame n.kind with
      | true => rw [declaredNames_opens hopens, declaredNames_opens (by rwa [kind_untyped])]
      | false =>
          have hbody : isBody n.untyped = isBody n := by rw [isBody, isBody, kind_untyped]
          rw [declaredNames_other hopens, declaredNames_other (by rwa [kind_untyped]),
            variableNames_untyped, hbody, children_untyped,
            declaredNamesList_untyped_of fun c hc => ih c hc _]

theorem declaredNamesList_untyped (inBody : Bool) (es : List Element) :
    declaredNamesList inBody (Node.untypedList es) = declaredNamesList inBody es :=
  declaredNamesList_untyped_of fun c _ => declaredNames_untyped inBody c

theorem frameNames_untyped (n : Node) : frameNames n.untyped = frameNames n := by
  have hname : declaredName? ∘ Node.untyped = declaredName? := by
    funext p
    rw [Function.comp_apply, declaredName?, declaredName?, tokens_untyped]
  rw [frameNames, frameNames, kind_untyped, respelling_untyped.parametersOf, List.filterMap_map,
    hname, show declaredName? n.untyped = declaredName? n from congrFun hname n]

/-! ### What entering and leaving do to the variables -/

theorem local_declare {context : Context} {name other : String} (h : name ≠ other) (type : TypeRef) :
    (context.declare other type).local? name = context.local? name := by
  rw [Context.declare]
  split
  · rfl
  · rename_i frame rest hlocals
    rw [Context.local?, Context.local?, hlocals, List.findSome?_cons, List.findSome?_cons,
      Bindings.get?_put_of_ne _ _ h]

theorem local_declare_self {context : Context} (h : context.locals ≠ []) (name : String)
    (type : TypeRef) : (context.declare name type).local? name = some type := by
  rw [Context.declare]
  split
  · contradiction
  · rw [Context.local?, List.findSome?_cons, Bindings.get?_put_self]

theorem frames_declare (context : Context) (name : String) (type : TypeRef) :
    (context.declare name type).locals.tail = context.locals.tail ∧
      (context.declare name type).locals.length = context.locals.length := by
  rw [Context.declare]
  split
  · exact ⟨rfl, rfl⟩
  · rename_i hlocals
    rw [hlocals]
    exact ⟨rfl, rfl⟩

theorem get_foldl_put {scope : Scope} {name : String} {ps : List Node} {frame : Bindings TypeRef}
    (h : name ∉ ps.filterMap declaredName?) :
    Bindings.get? (ps.foldl (fun frame p =>
      match declaredName? p with
      | some name => frame.put name (scope.parameterType p)
      | none => frame) frame) name = frame.get? name := by
  induction ps generalizing frame with
  | nil => rfl
  | cons p ps ih =>
      cases hp : declaredName? p with
      | none =>
          rw [List.filterMap_cons, hp] at h
          rw [List.foldl_cons, hp]
          exact ih h
      | some other =>
          rw [List.filterMap_cons, hp] at h
          obtain ⟨hother, h⟩ := not_or.1 (List.mem_cons.not.1 h)
          rw [List.foldl_cons, hp]
          exact (ih h).trans (Bindings.get?_put_of_ne _ _ hother)

theorem get_parameterFrame {scope : Scope} {n : Node} {name : String}
    (h : name ∉ (Scope.parametersOf n).filterMap declaredName?) :
    (parameterFrame scope n).get? name = none :=
  get_foldl_put h

theorem get_catchFrame {scope : Scope} {n : Node} {name : String}
    (h : name ∉ (declaredName? n).toList) : (catchFrame scope n).get? name = none := by
  rw [catchFrame]
  cases hn : declaredName? n with
  | none => rfl
  | some other =>
      have hother : other ≠ name := by
        rintro rfl
        exact h (by simp [hn])
      simp [Bindings.get?, hother]

theorem locals_enter_opens {n : Node} (h : opensFrame n.kind = true) (context : Context) :
    ∃ frame : Bindings TypeRef, (context.enter n).locals = frame :: context.locals ∧
      ∀ name ∉ frameNames n, frame.get? name = none := by
  have hempty : ∀ name : String, Bindings.get? ([] : Bindings TypeRef) name = none := fun _ => rfl
  rw [Context.enter]
  split
  · exact ⟨_, rfl, fun name _ => hempty name⟩
  · rename_i hkind
    refine ⟨_, rfl, fun name hname => get_parameterFrame ?_⟩
    simpa only [frameNames, hkind] using hname
  · rename_i hkind
    refine ⟨_, rfl, fun name hname => get_catchFrame ?_⟩
    simpa only [frameNames, hkind] using hname
  · exact ⟨_, rfl, fun name _ => hempty name⟩
  · exact ⟨_, rfl, fun name _ => hempty name⟩
  · exact ⟨_, rfl, fun name _ => hempty name⟩
  · unfold opensFrame at h
    split at h <;> contradiction

theorem enter_other {n : Node} (h : opensFrame n.kind = false) (context : Context) :
    context.enter n = context := by
  rw [Context.enter]
  split <;> first | rfl | (rename_i hkind; rw [hkind] at h; cases h)

theorem local_enter {n : Node} {context : Context} {name : String} (h : name ∉ frameNames n) :
    (context.enter n).local? name = context.local? name := by
  cases hopens : opensFrame n.kind with
  | false => rw [enter_other hopens]
  | true =>
      obtain ⟨frame, hlocals, hframe⟩ := locals_enter_opens hopens context
      rw [Context.local?, hlocals, List.findSome?_cons, hframe name h]
      rfl

section
variable {symbols : SymbolTable} {n : Node} {cursor : Cursor} {context : Context}

theorem locals_leave_opens (h : opensFrame n.kind = true) :
    ((attributionHooks symbols).visitor.leave n cursor context).2.locals = context.locals.tail := by
  unfold opensFrame at h
  split at h
  · rename_i hkind
    rw [after_class hkind]
    rfl
  · rename_i hkind
    rw [after_method hkind]
    rfl
  · rename_i hkind
    rw [leave_visited hkind]
    rfl
  · rename_i hkind
    rw [leave_visited hkind]
    rfl
  · rename_i hkind
    rw [leave_visited hkind]
    rfl
  · rename_i hkind
    rw [leave_visited hkind]
    rfl
  · cases h

/-- What a context binds differs from another one only in the innermost frame, and in that one only
for some names. -/
structure Context.Extends (names : List String) (context context' : Context) : Prop where
  outer : context'.locals.tail = context.locals.tail
  length : context'.locals.length = context.locals.length
  kept : ∀ name ∉ names, context'.local? name = context.local? name

namespace Context.Extends

variable {names names' : List String} {s t u : Context}

theorem mono (h : s.Extends names t) (hsub : names ⊆ names') : s.Extends names' t :=
  ⟨h.outer, h.length, fun name hname => h.kept name fun hmem => hname (hsub hmem)⟩

theorem refl (context : Context) : context.Extends names context :=
  ⟨rfl, rfl, fun _ _ => rfl⟩

theorem trans (h : s.Extends names t) (h' : t.Extends names' u) : s.Extends (names ++ names') u where
  outer := h'.outer.trans h.outer
  length := h'.length.trans h.length
  kept name hname := by
    rw [List.mem_append, not_or] at hname
    exact (h'.kept name hname.2).trans (h.kept name hname.1)

theorem of_locals (h : t.locals = s.locals) : s.Extends names t :=
  ⟨by rw [h], by rw [h], fun name _ => by rw [Context.local?, Context.local?, h]⟩

end Context.Extends

theorem extends_declare {name : String} {type : TypeRef} :
    context.Extends [name] (context.declare name type) := by
  obtain ⟨houter, hlength⟩ := frames_declare context name type
  exact ⟨houter, hlength, fun other hother => local_declare (by simpa using hother) type⟩

theorem extends_declareAll {declared : List (String × TypeRef)} :
    context.Extends (declared.map Prod.fst)
      (declared.foldl (fun context v => context.declare v.1 v.2) context) := by
  induction declared generalizing context with
  | nil => exact .refl context
  | cons v declared ih => exact extends_declare.trans ih

theorem names_declaredVariables (scope : Scope) (hkind : n.kind = .java .variableDeclaration)
    (infer : Node → TypeRef) :
    (scope.declaredVariables n infer).map Prod.fst ⊆ variableNames false n := by
  rw [Scope.declaredVariables, variableNames, hkind]
  split
  · rename_i hdeclarators
    rw [hdeclarators, List.map_filterMap]
    simp only [Option.map_map, Option.map_some, Option.getD_some]
    exact List.Subset.refl _
  · exact List.nil_subset _

theorem extends_leave (h : opensFrame n.kind = false) :
    context.Extends (variableNames (cursor.parent?.any isBody) n)
      ((attributionHooks symbols).visitor.leave n cursor context).2 := by
  by_cases hvariable : n.kind = .java .variableDeclaration
  · rw [after_variable hvariable, declareVariables]
    cases cursor.parent?.any isBody with
    | true => exact .refl context
    | false => exact extends_declareAll.mono (names_declaredVariables _ hvariable _)
  by_cases hresource : n.kind = .java .resource
  · have hnames : variableNames (cursor.parent?.any isBody) n = (firstIdentifier? n).toList := by
      simp only [variableNames, hresource]
    rw [after_resource hresource, declareResource, hnames]
    split
    · rename_i tree name _ hname
      rw [hname]
      exact extends_declare
    · exact .refl context
  by_cases hcall : n.kind = .java .methodInvocation
  · rw [leave_visited hcall]
    exact .refl context
  · have hidle : acts n.kind = false := by
      unfold acts
      split <;> simp_all [opensFrame]
    rw [leave_idle hidle]
    exact .refl context

end

/-! ### What a visit does to the variables -/

section
variable {symbols : SymbolTable} {parent : Node} {cursor : Cursor} {index : Nat}
  {es es' : List Element} {s s' : Context} {changed : Bool}

/-- Sweeping some children binds the names that they declare, if visits of them do. -/
theorem extends_swept
    (h : SweptAt (attributionHooks symbols).visitor.Visiting parent cursor index es s es' changed s')
    (hes : ∀ c, Element.node c ∈ es → ∀ index s c' s',
      (attributionHooks symbols).visitor.Visits (⟨parent, index⟩ :: cursor) c s c' s' →
        s.Extends (declaredNames (isBody parent) c) s') :
    s.Extends (declaredNamesList (isBody parent) es) s' := by
  induction h with
  | nil => exact .refl _
  | token _ ih => exact ih fun c hc => hes c (List.mem_cons_of_mem _ hc)
  | node hn _ ih =>
      exact (hes _ List.mem_cons_self _ _ _ _ hn).trans
        (ih fun c hc => hes c (List.mem_cons_of_mem _ hc))

/-- A visit binds the names that the node declares, and keeps all else that is bound. -/
theorem extends_visits {n n' : Node}
    (h : (attributionHooks symbols).visitor.Visits cursor n s n' s') :
    s.Extends (declaredNames (cursor.parent?.any isBody) n) s' := by
  induction n using Node.induction_on generalizing cursor s n' s' with
  | step n ih =>
      obtain ⟨es', changed, t, hswept, hvisits⟩ := Visitor.exists_visits (enter_keeps symbols) cursor n s
      obtain ⟨-, rfl⟩ := h.unique hvisits
      have hchildren := extends_swept hswept fun c hc index s c' s' hc' => ih c hc hc'
      have henter : ((attributionHooks symbols).visitor.enter n cursor s).2 = s.enter n := rfl
      rw [henter] at hchildren hswept
      cases hopens : opensFrame n.kind with
      | true =>
          obtain ⟨frame, hlocals, -⟩ := locals_enter_opens hopens s
          refine .of_locals ((locals_leave_opens (n := { n with children := es' }) hopens).trans ?_)
          rw [hchildren.outer, hlocals]
          rfl
      | false =>
          rw [enter_other hopens] at hchildren hswept
          have hnames : variableNames (cursor.parent?.any isBody) { n with children := es' } =
              variableNames (cursor.parent?.any isBody) n := by
            rw [← variableNames_untyped, untyped_of_swept hswept, variableNames_untyped]
          let v : Node := { n with children := es' }
          have hleft : t.Extends (variableNames (cursor.parent?.any isBody) v)
              ((attributionHooks symbols).visitor.leave v cursor t).2 := extends_leave hopens
          rw [hnames] at hleft
          rw [declaredNames_other hopens]
          refine (hchildren.trans hleft).mono fun name hname => ?_
          rw [List.mem_append] at hname ⊢
          exact hname.symm

end

/-! ### From a declaration to the places in its scope -/

/-- On the way from behind the child `index` of a node, and of the nodes below it in which a
declaration stands there, to the place `inner'` below the child `index'` of the node, no frame ends and
the name is not declared again. -/
structure StaysBound (name : String) (inner : Cursor) (parent : Node) (index index' : Nat)
    (inner' : Cursor) : Prop where
  order : index < index'
  up : ∀ frame ∈ inner, opensFrame frame.node.kind = false ∧ name ∉ variableNames false frame.node ∧
    name ∉ declaredNamesList (isBody frame.node) (frame.node.children.drop (frame.index + 1))
  across : name ∉ declaredNamesList (isBody parent) ((parent.children.take index').drop (index + 1))
  down : ∀ frame ∈ inner', name ∉ frameNames frame.node ∧
    name ∉ declaredNamesList (isBody frame.node) (frame.node.children.take frame.index)

/-- Behind the declaration at the place the variable has the type, wherever its frame is still open
and nothing else has taken the name. -/
def ReadAs (symbols : SymbolTable) (unit : Node) (cursor : Cursor) (name : String) (type : TypeRef) :
    Prop :=
  ∀ inner parent index rest inner' index' v context, cursor = inner ++ ⟨parent, index⟩ :: rest →
    LeftIn symbols unit (inner' ++ ⟨parent, index'⟩ :: rest) v context →
      StaysBound name inner parent index index' (⟨v, v.children.length⟩ :: inner') →
        context.variableType? symbols name = some type

section
variable {symbols : SymbolTable} {root : Node} {s : Context} {name : String}

theorem local_of_swept {parent : Node} {rest : Cursor} {index : Nat} {es es' : List Element}
    {t t' : Context} {changed : Bool}
    (h : SweptAt (attributionHooks symbols).visitor.Visiting parent rest index es t es' changed t')
    (hname : name ∉ declaredNamesList (isBody parent) es) : t'.local? name = t.local? name :=
  (extends_swept h fun _ _ _ _ _ _ hvisits => extends_visits hvisits).kept name hname

/-- Attribution has visited the node at the place, in the context. -/
def Passes (symbols : SymbolTable) (root : Node) (s : Context) (cursor : Cursor) (t : Context) : Prop :=
  ∃ n u n', (attributionHooks symbols).visitor.Reaches root s cursor n u ∧
    (attributionHooks symbols).visitor.Visits cursor n u n' t

theorem local_parent {frame : Frame} {rest : Cursor} {t : Context}
    (h : Passes symbols root s (frame :: rest) t) (hopens : opensFrame frame.node.kind = false)
    (hself : name ∉ variableNames false frame.node)
    (hbehind : name ∉ declaredNamesList (isBody frame.node)
      (frame.node.children.drop (frame.index + 1))) :
    ∃ t', Passes symbols root s rest t' ∧ t'.local? name = t.local? name := by
  obtain ⟨parent, index⟩ := frame
  obtain ⟨n, u, n', hreaches, hvisits⟩ := h
  obtain ⟨u₀, before, before', behind, changed, hparent, hchildren, rfl, hbefore⟩ := hreaches.parent
  obtain ⟨behind', changed', t₁, hswept⟩ := Visitor.exists_swept (enter_keeps symbols) parent rest behind
    (before.length + 1) t
  obtain ⟨swept, hall⟩ := Visitor.swept_around hchildren hbefore hvisits hswept
  refine ⟨_, ⟨parent, u₀, _, hparent, Visitor.visits_of_swept (fun _ _ _ => rfl) hall⟩, ?_⟩
  have hdrop : parent.children.drop (before.length + 1) = behind := by simp [hchildren]
  let v : Node := { parent with children := before' ++ .node n' :: behind' }
  have hnames : name ∉ variableNames (rest.parent?.any isBody) v := by
    rw [← variableNames_untyped, untyped_of_swept hall, variableNames_untyped]
    exact fun hmem => hself (variableNames_inBody hmem)
  have hleft : t₁.Extends (variableNames (rest.parent?.any isBody) v)
      ((attributionHooks symbols).visitor.leave v rest t₁).2 := extends_leave hopens
  rw [hleft.kept name hnames]
  exact local_of_swept hswept (hdrop ▸ hbehind)

theorem local_up {inner base : Cursor} {t : Context} (h : Passes symbols root s (inner ++ base) t)
    (hup : ∀ frame ∈ inner, opensFrame frame.node.kind = false ∧ name ∉ variableNames false frame.node ∧
      name ∉ declaredNamesList (isBody frame.node) (frame.node.children.drop (frame.index + 1))) :
    ∃ t', Passes symbols root s base t' ∧ t'.local? name = t.local? name := by
  induction inner generalizing t with
  | nil => exact ⟨t, h, rfl⟩
  | cons frame inner ih =>
      obtain ⟨⟨hopens, hself, hbehind⟩, hup⟩ := List.forall_mem_cons.1 hup
      obtain ⟨t₁, hparent, hsame⟩ := local_parent h hopens hself hbehind
      obtain ⟨t', hpasses, hsame'⟩ := ih hparent hup
      exact ⟨t', hpasses, hsame'.trans hsame⟩

theorem local_across {parent n : Node} {index index' : Nat} {rest : Cursor} {t t' : Context}
    (h : Passes symbols root s (⟨parent, index⟩ :: rest) t)
    (h' : (attributionHooks symbols).visitor.Reaches root s (⟨parent, index'⟩ :: rest) n t')
    (hlt : index < index') (hbetween : name ∉ declaredNamesList (isBody parent)
      ((parent.children.take index').drop (index + 1))) :
    t'.local? name = t.local? name := by
  obtain ⟨c, u, c', hreaches, hvisits⟩ := h
  obtain ⟨u₀, before, before', behind, _, hparent, hchildren, rfl, hbefore⟩ := hreaches.parent
  obtain ⟨u₀', front, front', back, _, hparent', hchildren', rfl, hfront⟩ := h'.parent
  obtain ⟨-, rfl⟩ := hparent.unique hparent'
  -- The children in front of the second place begin with those in front of the first one.
  obtain ⟨between, rfl⟩ : ∃ between, front = before ++ .node c :: between := by
    have hprefix : before ++ [.node c] <+: front := by
      have hfirst : before ++ [.node c] <+: parent.children := ⟨behind, by simp [hchildren]⟩
      exact List.prefix_of_prefix_length_le hfirst ⟨.node n :: back, hchildren'.symm⟩
        (by simp; omega)
    obtain ⟨between, hbetween⟩ := hprefix
    exact ⟨between, by simp [← hbetween]⟩
  have hnames : (parent.children.take (before ++ .node c :: between).length).drop
      (before.length + 1) = between := by
    rw [hchildren', List.take_left]
    simp
  obtain ⟨between', _, t₁, hswept⟩ := Visitor.exists_swept (enter_keeps symbols) parent rest between
    (0 + before.length + 1) t
  have hnode : SweptAt (attributionHooks symbols).visitor.Visiting parent rest (0 + before.length)
      (.node c :: between) u (.node c' :: between') (false || _) t₁ :=
    .node (by rwa [Nat.zero_add]) hswept
  obtain ⟨-, rfl⟩ := Visitor.swept_unique hfront (hbefore.append hnode)
  exact local_of_swept hswept (hnames ▸ hbetween)

theorem local_down {inner base : Cursor} {n : Node} {t : Context}
    (h : (attributionHooks symbols).visitor.Reaches root s (inner ++ base) n t)
    (hdown : ∀ frame ∈ inner, name ∉ frameNames frame.node ∧
      name ∉ declaredNamesList (isBody frame.node) (frame.node.children.take frame.index)) :
    ∃ m t₀, (attributionHooks symbols).visitor.Reaches root s base m t₀ ∧
      t.local? name = t₀.local? name := by
  induction inner generalizing n t with
  | nil => exact ⟨n, t, h, rfl⟩
  | cons frame inner ih =>
      obtain ⟨hframe, hdown⟩ := List.forall_mem_cons.1 hdown
      obtain ⟨u, before, before', behind, _, hparent, hchildren, hlength, hbefore⟩ :=
        Visitor.Reaches.parent h
      obtain ⟨m, t₀, hreaches, hsame⟩ := ih hparent hdown
      have htake : frame.node.children.take frame.index = before := by
        rw [hchildren, ← hlength, List.take_left]
      refine ⟨m, t₀, hreaches, ?_⟩
      rw [local_of_swept hbefore (htake ▸ hframe.2), ← hsame]
      exact local_enter hframe.1

theorem readAs_of_passes {unit : Node} {cursor : Cursor} {t : Context} {type : TypeRef}
    (h : Passes symbols unit (.atUnit symbols unit) cursor t) (hlocal : t.local? name = some type) :
    ReadAs symbols unit cursor name type := by
  rintro inner parent index rest inner' index' v context rfl hleft hstays
  obtain ⟨n, t₀, es, below, hreaches, hswept, rfl⟩ := hleft
  obtain ⟨horder, hup, hacross, hdown⟩ := hstays
  obtain ⟨⟨hframe, hchildren⟩, hdown⟩ := List.forall_mem_cons.1 hdown
  obtain ⟨t₁, hpasses, hsame₁⟩ := local_up h hup
  obtain ⟨m, t₂, hreaches₂, hsame₂⟩ := local_down hreaches hdown
  have hsame₃ := local_across hpasses hreaches₂ horder hacross
  have huntyped := untyped_of_swept hswept
  -- The names in the node are those of the node before its children were visited.
  have hframe' : name ∉ frameNames n := by
    rwa [← frameNames_untyped, ← huntyped, frameNames_untyped]
  have hchildren' : name ∉ declaredNamesList (isBody n) n.children := by
    have hnames := declaredNamesList_untyped (isBody n) es
    rw [show Node.untypedList es = Node.untypedList n.children from
      (children_untyped _).symm.trans ((congrArg Node.children huntyped).trans (children_untyped n)),
      declaredNamesList_untyped] at hnames
    rw [hnames]
    rwa [List.take_length] at hchildren
  have hinside : context.local? name = t₀.local? name :=
    (local_of_swept hswept hchildren').trans (local_enter hframe')
  have hread : context.local? name = some type := by
    rw [hinside, hsame₂, hsame₃, hsame₁, hlocal]
  rw [Context.variableType?, show context.locals.findSome? (·.get? name) = some type from hread]
  rfl

end

/-! ### What a declaration binds -/

theorem locals_of_reaches {symbols : SymbolTable} {root n : Node} {s t : Context} {cursor : Cursor}
    (h : (attributionHooks symbols).visitor.Reaches root s cursor n t)
    (hclass : ∃ frame ∈ cursor, opensFrame frame.node.kind = true) : t.locals ≠ [] := by
  induction h with
  | root =>
      obtain ⟨frame, hframe, -⟩ := hclass
      cases hframe
  | @child cursor parent n before before' behind t t' changed _ _ hbefore ih =>
      have hlength : t'.locals.length = (t.enter parent).locals.length :=
        (extends_swept hbefore fun _ _ _ _ _ _ hvisits => extends_visits hvisits).length
      have hentered : (t.enter parent).locals ≠ [] := by
        cases hopens : opensFrame parent.kind with
        | true =>
            obtain ⟨frame, hlocals, -⟩ := locals_enter_opens hopens t
            simp [hlocals]
        | false =>
            rw [enter_other hopens]
            obtain ⟨frame, hframe, hkind⟩ := hclass
            rcases List.mem_cons.1 hframe with rfl | hframe
            · exact absurd (hopens.symm.trans hkind) (by decide)
            · exact ih ⟨frame, hframe, hkind⟩
      rw [← List.length_pos_iff, hlength]
      exact List.length_pos_iff.2 hentered

theorem local_declareAll {context : Context} (h : context.locals ≠ [])
    {before behind : List (String × TypeRef)} {name : String} {type : TypeRef}
    (hname : name ∉ behind.map Prod.fst) :
    ((before ++ (name, type) :: behind).foldl (fun context v => context.declare v.1 v.2)
      context).local? name = some type := by
  have hbefore : context.Extends (before.map Prod.fst)
      (before.foldl (fun context v => context.declare v.1 v.2) context) := extends_declareAll
  rw [List.foldl_append, List.foldl_cons, extends_declareAll.kept name hname]
  refine local_declare_self ?_ name type
  rw [← List.length_pos_iff, hbefore.length]
  exact List.length_pos_iff.2 h

end Codemod.Java
