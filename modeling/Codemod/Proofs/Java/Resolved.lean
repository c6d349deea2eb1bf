import Codemod.Proofs.Java.Signatures

/-!
What attribution finds out about the declarations and the calls of a source set. Each member that a
table of symbols knows a method of carries its signature in the attributed unit, and each call
that resolved carries a method of the table. So a call and the declaration that it means always
carry the same signature.
-/

namespace Codemod.Java

open Codemod.Tree

/-! ### What attribution does at a node -/

/-- A declaration that carries the signature stands in the tree. -/
def Declared (m : Signature) (n : Node) : Prop :=
  ∃ declaration ∈ n.preorder,
    declaration.kind = .java .methodDeclaration ∧ declaration.type? = some (.method m)

/-- What attribution found out about a node fits it: only classes carry the name of a class, and
only declarations and calls a method, under its name, and calls one of the table. -/
structure Spelled (symbols : SymbolTable) (n : Node) : Prop where
  type : ∀ name, n.type? = some (.type name) → n.kind = .java .classDeclaration
  declaration : ∀ m, n.type? = some (.method m) →
    n.kind = .java .methodDeclaration ∧ methodName? n = some m.name
  call : ∀ m viaStaticImport, n.type? = some (.invocation m viaStaticImport) →
    n.kind = .java .methodInvocation ∧ methodName? n = some m.name ∧
      ∃ c ∈ symbols.classes, m ∈ c.methods

theorem spelled_of_none {symbols : SymbolTable} {n : Node} (h : n.type? = none) :
    Spelled symbols n where
  type := by simp [h]
  declaration := by simp [h]
  call := by simp [h]

/-- The object of which a declaration at the place is a member is created on the spot. -/
def isAnonymous (cursor : Cursor) : Bool :=
  cursor.ancestors[1]?.any fun owner => owner.kind == .java .newClass

theorem isAnonymous_member {cursor : Cursor} (n : Node) (index : Nat)
    (h : (cursor.parent?.any fun p => p.kind == .java .classDeclaration) = true) :
    isAnonymous (⟨n, index⟩ :: cursor) = false := by
  cases cursor with
  | nil => rfl
  | cons frame rest =>
      have hframe : frame.node.kind = .java .classDeclaration := by simpa [Cursor.parent?] using h
      simp [isAnonymous, Cursor.ancestors, hframe]

/-- The methods among some members carry the signatures that a scope gives them, and those without a
signature nothing. -/
def Signed (scope : Scope) (declaringType : String) (members : List Node) : Prop :=
  ∀ member ∈ members, member.kind = .java .methodDeclaration →
    member.type? = (scope.method? member declaringType).map .method

/-- What attribution makes of a node at a place. -/
structure Attributes (symbols : SymbolTable) (cursor : Cursor) (n : Node) (s : Context)
    (n' : Node) (s' : Context) : Prop where
  scope : s'.scope = s.scope
  untyped : n'.untyped = n.untyped
  spelled : n'.Everywhere (Spelled symbols)
  method : isAnonymous cursor = false → ∀ current, s.scope.currentClass? = some current →
    Signed s.scope current [n']
  body : isBody n = true → (cursor.parent?.any fun p => p.kind == .java .classDeclaration) = true →
    ∀ current, s.scope.currentClass? = some current → Signed s.scope current n'.childNodes
  classes : ∀ d ∈ declaredClasses s.scope.package s.scope.classes n',
    Signed (d.inside s.scope) d.name (members d.node)

/-- The relation of attribution to nodes that were parsed. -/
def Attributing (symbols : SymbolTable) (cursor : Cursor) : VisitRelation Context :=
  fun n s n' _ s' => n.Everywhere Parsed → Attributes symbols cursor n s n' s'

section
variable {symbols : SymbolTable} {parent : Node} {cursor : Cursor} {index : Nat}
  {es es' : List Element} {s s' : Context} {changed : Bool}
  (h : SweptAt (Attributing symbols) parent cursor index es s es' changed s')
  (hparsed : ∀ c, Element.node c ∈ es → c.Everywhere Parsed)
include h hparsed

theorem scope_of_attributed : s'.scope = s.scope := by
  induction h with
  | nil => rfl
  | token _ ih => exact ih fun c hc => hparsed c (List.mem_cons_of_mem _ hc)
  | node hn _ ih =>
      rw [ih fun c hc => hparsed c (List.mem_cons_of_mem _ hc),
        (hn (hparsed _ List.mem_cons_self)).scope]

theorem untypedList_of_attributed : Node.untypedList es' = Node.untypedList es := by
  induction h with
  | nil => rfl
  | token _ ih =>
      rw [Node.untypedList, Node.untypedList, ih fun c hc => hparsed c (List.mem_cons_of_mem _ hc)]
  | node hn _ ih =>
      rw [Node.untypedList, Node.untypedList, ih fun c hc => hparsed c (List.mem_cons_of_mem _ hc),
        Element.untyped, Element.untyped, (hn (hparsed _ List.mem_cons_self)).untyped]

theorem child_of_attributed {c' : Node} (hc' : Element.node c' ∈ es') :
    ∃ c i s₁ s₂, Element.node c ∈ es ∧ s₁.scope = s.scope ∧
      Attributes symbols (⟨parent, i⟩ :: cursor) c s₁ c' s₂ := by
  induction h with
  | nil => cases hc'
  | token _ ih =>
      rcases List.mem_cons.1 hc' with hc' | hc'
      · cases hc'
      · obtain ⟨c, i, s₁, s₂, hc, h⟩ := ih (fun c hc => hparsed c (List.mem_cons_of_mem _ hc)) hc'
        exact ⟨c, i, s₁, s₂, List.mem_cons_of_mem _ hc, h⟩
  | node hn _ ih =>
      have hfirst := hn (hparsed _ List.mem_cons_self)
      rcases List.mem_cons.1 hc' with hc' | hc'
      · cases hc'
        exact ⟨_, _, _, _, List.mem_cons_self, rfl, hfirst⟩
      · obtain ⟨c, i, s₁, s₂, hc, hscope, h⟩ :=
          ih (fun c hc => hparsed c (List.mem_cons_of_mem _ hc)) hc'
        exact ⟨c, i, s₁, s₂, List.mem_cons_of_mem _ hc, hscope.trans hfirst.scope, h⟩

end

/-! ### Leaving a node -/

section
variable {symbols : SymbolTable} {v : Node} {cursor : Cursor} {context : Context}

theorem leave_visited {kind : Kind} (hkind : v.kind = .java kind) :
    (attributionHooks symbols).visitor.leave v cursor context =
      if kind.isVisited then (attributionHooks symbols).leave kind v cursor context
      else (none, context) := by
  simp only [Hooks.visitor, hkind]

theorem leave_method (hkind : v.kind = .java .methodDeclaration) :
    (attributionHooks symbols).visitor.leave v cursor context = leaveMethod v cursor context :=
  leave_visited hkind

theorem leave_class (hkind : v.kind = .java .classDeclaration) :
    (attributionHooks symbols).visitor.leave v cursor context = leaveClass v context :=
  leave_visited hkind

theorem scope_declare (name : String) (type : TypeRef) :
    (context.declare name type).scope = context.scope := by
  rw [Context.declare]
  split <;> rfl

theorem scope_declareVariables :
    (declareVariables symbols v cursor context).scope = context.scope := by
  have hfold : ∀ (declared : List (String × TypeRef)) (context : Context),
      (declared.foldl (fun context w => context.declare w.1 w.2) context).scope =
        context.scope := by
    intro declared
    induction declared with
    | nil => exact fun _ => rfl
    | cons w declared ih =>
        intro context
        rw [List.foldl_cons, ih, scope_declare]
  rw [declareVariables]
  split_ifs
  · rfl
  · exact hfold _ _

theorem scope_declareResource : (declareResource v context).scope = context.scope := by
  rw [declareResource]
  split
  · exact scope_declare _ _
  · rfl

theorem scope_leave (hkind : v.kind ≠ .java .classDeclaration) :
    ((attributionHooks symbols).visitor.leave v cursor context).2.scope = context.scope := by
  simp only [Hooks.visitor, attributionHooks]
  split
  · rename_i kind h
    split_ifs
    · split
      · exact absurd h hkind
      · rw [leaveMethod]
        split_ifs
        · rfl
        · split <;> rfl
      · rfl
      · rfl
      · rfl
      · rfl
      · exact scope_declareVariables
      · exact scope_declareResource
      · rfl
      · rfl
    · rfl
  · rfl

/-- The signature of a declaration has the name of the declaration. -/
theorem name_of_method {scope : Scope} {declaringType : String} {m : Signature}
    (h : scope.method? v declaringType = some m) : methodName? v = some m.name := by
  rw [Scope.method?] at h
  split_ifs at h
  obtain ⟨name, hname, rfl⟩ := Option.map_eq_some_iff.1 h
  exact hname

theorem resolved_call {info : TypeInfo} (h : resolveCall? symbols context v = some info) :
    ∃ m via, info = .invocation m via ∧ methodName? v = some m.name ∧
      ∃ c ∈ symbols.classes, m ∈ c.methods := by
  simp only [resolveCall?, Option.bind_eq_bind, Option.bind_eq_some_iff] at h
  obtain ⟨name, hname, list, _, h⟩ := h
  have hfound : ∃ m via owner arguments, info = .invocation m via ∧
      symbols.findMethod? owner name arguments = some m := by
    cases hreceiver : receiver? v with
    | some receiver =>
        rw [hreceiver] at h
        simp only [Option.bind_eq_some_iff] at h
        obtain ⟨owner, _, m, hm, h⟩ := h
        cases h
        exact ⟨_, _, _, _, rfl, hm⟩
    | none =>
        rw [hreceiver] at h
        simp only [unqualifiedCall?] at h
        split_ifs at h
        split at h
        · rename_i hm
          cases h
          obtain ⟨owner, _, hm⟩ := List.exists_of_findSome?_eq_some hm
          exact ⟨_, _, _, _, rfl, hm⟩
        · obtain ⟨m, hm, rfl⟩ := Option.map_eq_some_iff.1 h
          rw [importedMethod?, Option.filter_eq_some_iff] at hm
          obtain ⟨owner, _, hm⟩ := List.exists_of_findSome?_eq_some hm.1
          exact ⟨_, _, _, _, rfl, hm⟩
  obtain ⟨m, via, owner, arguments, rfl, hfound⟩ := hfound
  obtain ⟨hmem, hname'⟩ := SymbolTable.mem_of_findMethod hfound
  exact ⟨m, via, rfl, hname' ▸ hname, hmem⟩

theorem leave_silent (hclass : v.kind ≠ .java .classDeclaration)
    (hmethod : v.kind ≠ .java .methodDeclaration) (hcall : v.kind ≠ .java .methodInvocation) :
    ((attributionHooks symbols).visitor.leave v cursor context).1 = none := by
  simp only [Hooks.visitor, attributionHooks]
  split
  · rename_i kind h
    split_ifs
    · split
      · exact absurd h hclass
      · exact absurd h hmethod
      · rfl
      · rfl
      · rfl
      · rfl
      · rfl
      · rfl
      · exact absurd h hcall
      · rfl
    · rfl
  · rfl

theorem leave_spelled (h : v.type? = none) :
    ∃ t, ((attributionHooks symbols).visitor.leave v cursor context).1.getD v =
        { v with type? := t } ∧ Spelled symbols { v with type? := t } := by
  have hstays : (none : Option Node).getD v = { v with type? := none } := by
    rw [Option.getD_none, ← h]
    cases v
    rfl
  by_cases hclass : v.kind = .java .classDeclaration
  · rw [leave_class hclass, leaveClass]
    split
    · exact ⟨none, hstays, spelled_of_none rfl⟩
    · exact ⟨_, rfl, fun _ _ => hclass, by simp, by simp⟩
  by_cases hmethod : v.kind = .java .methodDeclaration
  · rw [leave_method hmethod, leaveMethod]
    split_ifs
    · exact ⟨none, hstays, spelled_of_none rfl⟩
    · split
      · rename_i m hm
        obtain ⟨current, _, hm⟩ := Option.bind_eq_some_iff.1 hm
        have hname := name_of_method hm
        refine ⟨_, rfl, by simp, ?_, by simp⟩
        intro m' hm'
        cases hm'
        exact ⟨hmethod, hname⟩
      · exact ⟨none, hstays, spelled_of_none rfl⟩
  by_cases hcall : v.kind = .java .methodInvocation
  · rw [leave_visited hcall]
    show ∃ t, (leaveCall symbols v context).1.getD v = _ ∧ _
    cases hresolved : resolveCall? symbols context v with
    | none =>
        rw [leaveCall, hresolved]
        exact ⟨none, hstays, spelled_of_none rfl⟩
    | some info =>
        obtain ⟨m, via, rfl, hname, hmem⟩ := resolved_call hresolved
        rw [leaveCall, hresolved]
        refine ⟨_, rfl, by simp, by simp, ?_⟩
        intro m' via' hm'
        cases hm'
        exact ⟨hcall, hname, hmem⟩
  · rw [leave_silent hclass hmethod hcall]
    exact ⟨none, hstays, spelled_of_none rfl⟩

end

/-! ### The walk -/

theorem scope_enter {n : Node} {s : Context} (h : n.kind ≠ .java .classDeclaration) :
    (s.enter n).scope = s.scope := by
  rw [Context.enter]
  split
  · contradiction
  all_goals rfl

theorem scope_enter_class {n : Node} {s : Context} {simple : String}
    (h : n.kind = .java .classDeclaration) (hname : className? n = some simple) :
    (s.enter n).scope = s.scope.enter (s.scope.nameFor simple) := by
  rw [Context.enter, h]
  simp only [hname]
  rfl

section
variable {symbols : SymbolTable} {n : Node} {cursor : Cursor} {s s' : Context}
  {es' : List Element} {changed : Bool}
  (h : SweptAt (Attributing symbols) n cursor 0 n.children (s.enter n) es' changed s')
  (hparsed : n.Everywhere Parsed)
include h hparsed

theorem scope_visited :
    ((attributionHooks symbols).visitor.leave { n with children := es' } cursor s').2.scope =
      s.scope := by
  obtain ⟨hn, hbelow⟩ := everywhere_iff.1 hparsed
  have hscope := scope_of_attributed h hbelow
  by_cases hclass : n.kind = .java .classDeclaration
  · obtain ⟨simple, hsimple⟩ := Option.isSome_iff_exists.1 (hn.regular.className hclass)
    rw [scope_enter_class hclass hsimple] at hscope
    rw [leave_class (v := { n with children := es' }) hclass, leaveClass]
    have hpop : s'.pop.scope = s.scope.enter (s.scope.nameFor simple) := hscope
    simp only [hpop, Scope.enter]
  · rw [scope_enter hclass] at hscope
    rw [scope_leave (v := { n with children := es' }) hclass, hscope]

theorem untyped_visited (type? : Option TypeInfo) :
    ({ n with children := es', type? } : Node).untyped = n.untyped := by
  have huntyped := untypedList_of_attributed h (everywhere_iff.1 hparsed).2
  obtain ⟨kind, lead, children, markers, type?⟩ := n
  rw [Node.untyped, Node.untyped, huntyped]

theorem regular_visited (type? : Option TypeInfo) :
    ({ n with children := es', type? } : Node).Everywhere Regular := by
  rw [← respelling_untyped.everywhere_regular, untyped_visited h hparsed,
    respelling_untyped.everywhere_regular]
  exact hparsed.imp fun _ => Parsed.regular

theorem method_visited (hplace : isAnonymous cursor = false) {current : String}
    (hcurrent : s.scope.currentClass? = some current) :
    Signed s.scope current [((attributionHooks symbols).visitor.leave { n with children := es' } cursor
      s').1.getD { n with children := es' }] := by
  obtain ⟨v, hv⟩ : ∃ v : Node, v = { n with children := es' } := ⟨_, rfl⟩
  rw [← hv]
  intro member hmember hkind
  obtain rfl := List.mem_singleton.1 hmember
  have hkind' : v.kind = .java .methodDeclaration := by
    cases hleft : ((attributionHooks symbols).visitor.leave v cursor s').1 with
    | none => rwa [hleft] at hkind
    | some w =>
        obtain ⟨info, rfl, _⟩ := leave_attribution hleft
        rwa [hleft] at hkind
  have hother : n.kind ≠ .java .classDeclaration := by
    rw [hv] at hkind'
    simp [show n.kind = _ from hkind']
  have hpop : s'.pop.scope = s.scope := by
    have hscope := scope_of_attributed h (everywhere_iff.1 hparsed).2
    rwa [scope_enter hother] at hscope
  have hnone : v.type? = none := by
    rw [hv]
    exact (everywhere_iff.1 hparsed).1.untyped
  rw [isAnonymous] at hplace
  rw [leave_method hkind', leaveMethod]
  simp only [hplace, Bool.false_eq_true, if_false, hpop, hcurrent, Option.bind_some]
  cases hmethod : s.scope.method? v current with
  | none => simp [hnone, hmethod]
  | some m =>
      have hsame : s.scope.method? { v with type? := some (.method m) } current = some m := by
        rw [← hmethod]
        rfl
      simp [hsame]

theorem body_visited (hbody : isBody n = true)
    (hparent : (cursor.parent?.any fun p => p.kind == .java .classDeclaration) = true)
    {current : String} (hcurrent : s.scope.currentClass? = some current) :
    Signed s.scope current (es'.filterMap Element.node?) := by
  intro member hmember hkind
  have hother : n.kind ≠ .java .classDeclaration := by
    intro hclass
    rw [isBody, hclass] at hbody
    cases hbody
  obtain ⟨c, i, s₁, s₂, _, hscope, hvisited⟩ :=
    child_of_attributed h (everywhere_iff.1 hparsed).2 (mem_childNodes.1 hmember)
  rw [scope_enter hother] at hscope
  rw [← hscope]
  exact hvisited.method (isAnonymous_member n i hparent) current (by rw [hscope]; exact hcurrent)
    member (List.mem_singleton_self member) hkind

theorem classes_visited {v : Node} (hkind : v.kind = n.kind) (hchildren : v.children = es')
    (huntyped : v.untyped = n.untyped) {d : DeclaredClass}
    (hd : d ∈ declaredClasses s.scope.package s.scope.classes v) :
    Signed (d.inside s.scope) d.name (members d.node) := by
  obtain ⟨hn, hbelow⟩ := everywhere_iff.1 hparsed
  have hlist : ∀ {scope : Scope}, (s.enter n).scope = scope → scope.package = s.scope.package →
      d.inside scope = d.inside s.scope →
        d ∈ declaredClassesList scope.package scope.classes v.children →
          Signed (d.inside s.scope) d.name (members d.node) := by
    intro scope henter hpackage hinside hd
    obtain ⟨child, hchild, hd⟩ := mem_declaredClassesList.1 hd
    rw [hchildren] at hchild
    obtain ⟨c, i, s₁, s₂, _, hscope, hvisited⟩ := child_of_attributed h hbelow hchild
    rw [henter] at hscope
    rw [← hinside, ← hscope]
    exact hvisited.classes d (by rw [hscope]; exact hd)
  by_cases hclass : n.kind = .java .classDeclaration
  · have hnameless : IsNameless n.kind := by
      rw [hclass]
      rfl
    obtain ⟨simple, hsimple⟩ := Option.isSome_iff_exists.1 (hn.regular.className hclass)
    have hname : className? v = some simple := by
      rw [← respelling_untyped.className (by rw [hkind]; exact hnameless), huntyped,
        respelling_untyped.className hnameless, hsimple]
    have hinside := scope_enter_class (s := s) hclass hsimple
    rw [declaredClasses_class (hkind.trans hclass) hname] at hd
    rcases List.mem_cons.1 hd with rfl | hd
    · -- A member of the class itself stands in its body.
      intro member hmember hmethod
      obtain ⟨body, hbody, hmember⟩ := List.mem_flatMap.1 hmember
      obtain ⟨hbody, hisBody⟩ := List.mem_filter.1 hbody
      have hbody := mem_childNodes.1 hbody
      rw [hchildren] at hbody
      obtain ⟨c, i, s₁, s₂, _, hscope, hvisited⟩ := child_of_attributed h hbelow hbody
      have hisBody' : isBody c = true := by
        rw [isBody, ← kind_untyped, ← hvisited.untyped, kind_untyped]
        exact hisBody
      rw [hinside] at hscope
      have hsigned := hvisited.body hisBody' (by simp [Cursor.parent?, hclass])
        (s.scope.nameFor simple) (by rw [hscope]; rfl) member hmember hmethod
      rw [hscope] at hsigned
      exact hsigned
    · exact hlist hinside rfl rfl hd
  · cases hbody : isBody v with
    | false =>
        rw [declaredClasses_other (by rw [hkind]; exact hclass) hbody] at hd
        cases hd
    | true =>
        rw [declaredClasses_body hbody] at hd
        exact hlist (scope_enter hclass) rfl rfl hd

end

theorem leaves_attributing (symbols : SymbolTable) :
    (attributionHooks symbols).visitor.LeavesAt (Attributing symbols) := by
  intro n cursor s s' es' changed hswept v left hparsed
  have henter : ((attributionHooks symbols).visitor.enter n cursor s).2 = s.enter n := rfl
  rw [henter] at hswept
  obtain ⟨hn, hbelow⟩ := everywhere_iff.1 hparsed
  obtain ⟨t, ht, hspelled⟩ : ∃ t, left.1.getD v = { v with type? := t } ∧
      Spelled symbols { v with type? := t } := leave_spelled hn.untyped
  have huntyped : ({ v with type? := t } : Node).untyped = n.untyped :=
    untyped_visited hswept hparsed t
  refine ⟨scope_visited hswept hparsed, ?_, ?_,
    fun hplace current hcurrent => method_visited hswept hparsed hplace hcurrent, ?_, ?_⟩ <;>
    rw [ht]
  · exact huntyped
  · refine everywhere_iff.2 ⟨hspelled, fun c hc => ?_⟩
    obtain ⟨_, _, _, _, _, _, hvisited⟩ := child_of_attributed hswept hbelow hc
    exact hvisited.spelled
  · exact fun hbody hparent current hcurrent => body_visited hswept hparsed hbody hparent hcurrent
  · exact fun d hd => classes_visited (v := { v with type? := t }) hswept hparsed rfl rfl huntyped hd

/-! ### Units -/

theorem addImport_place (scope : Scope) (clause : Node) :
    (scope.addImport clause).package = scope.package ∧
      (scope.addImport clause).classes = scope.classes := by
  rw [Scope.addImport]
  split
  · exact ⟨rfl, rfl⟩
  · exact ⟨rfl, rfl⟩
  · split <;> exact ⟨rfl, rfl⟩

/-- At the top of a unit there is no class around. -/
theorem ofUnit_place (unit : Node) (known : List String) :
    (Scope.ofUnit unit known).package = packageOf unit ∧ (Scope.ofUnit unit known).classes = [] := by
  have hfold : ∀ (clauses : List Node) (scope : Scope),
      (clauses.foldl Scope.addImport scope).package = scope.package ∧
        (clauses.foldl Scope.addImport scope).classes = scope.classes := by
    intro clauses
    induction clauses with
    | nil => exact fun _ => ⟨rfl, rfl⟩
    | cons clause clauses ih =>
        intro scope
        obtain ⟨hpackage, hclasses⟩ := addImport_place scope clause
        rw [List.foldl_cons, (ih _).1, (ih _).2, hpackage, hclasses]
        exact ⟨rfl, rfl⟩
  exact hfold _ _

section
variable {source : String} {unit : Node} (h : parseUnit source = .ok unit) (symbols : SymbolTable)
include h

theorem attributeUnit_swept {R : Cursor → VisitRelation Context}
    (hleave : (attributionHooks symbols).visitor.LeavesAt R) :
    ∃ es' below s', SweptAt R unit [] 0 unit.children
        { scope := .ofUnit unit (symbols.classes.map ClassSymbol.name) } es' below s' ∧
      attributeUnit symbols unit = { unit with children := es' } := by
  obtain ⟨hunit, _⟩ := unit_of_parseUnit h
  have haccepts : (attributionHooks symbols).visitor.accepts unit = true := by
    simp [Hooks.visitor, hunit.kind]
  obtain ⟨context, hcontext⟩ : ∃ context : Context, context =
      { scope := Scope.ofUnit unit (symbols.classes.map ClassSymbol.name) } := ⟨_, rfl⟩
  obtain ⟨_, es', below, s', hswept, hresult, _⟩ := Visitor.walk_leftAt (fun _ _ _ => rfl)
    hleave haccepts context
  rw [leave_silent (by simp [hunit.kind]) (by simp [hunit.kind]) (by simp [hunit.kind]),
    Option.getD_none] at hresult
  have henter : ((attributionHooks symbols).visitor.enter unit [] context).2 = context := by
    show context.enter unit = context
    simp [Context.enter, hunit.kind]
  rw [henter] at hswept
  refine ⟨es', below, s', hcontext ▸ hswept, ?_⟩
  rw [← hresult, hcontext]
  rfl

theorem regular_attributeUnit : (attributeUnit symbols unit).Everywhere Regular := by
  obtain ⟨hunit, _⟩ := unit_of_parseUnit h
  rw [← respelling_untyped.everywhere_regular, (types_attributeUnit symbols hunit.kind).1,
    respelling_untyped.everywhere_regular]
  exact (parsed_of_parseUnit h).imp fun _ => Parsed.regular

/-- In an attributed unit only declarations and calls carry a method, under its name, and calls one
of the table. -/
theorem spelled_attributeUnit : (attributeUnit symbols unit).Everywhere (Spelled symbols) := by
  obtain ⟨es', below, s', hswept, hresult⟩ := attributeUnit_swept h symbols (leaves_attributing symbols)
  obtain ⟨hn, hbelow⟩ := everywhere_iff.1 (parsed_of_parseUnit h)
  rw [hresult]
  refine everywhere_iff.2 ⟨spelled_of_none hn.untyped, fun c hc => ?_⟩
  obtain ⟨_, _, _, _, _, _, hvisited⟩ := child_of_attributed hswept hbelow hc
  exact hvisited.spelled

theorem signed_attributeUnit {d : DeclaredClass}
    (hd : d ∈ unitClasses (attributeUnit symbols unit)) :
    Signed (d.inside (.ofUnit unit (symbols.classes.map ClassSymbol.name))) d.name
      (members d.node) := by
  have hpackage : packageOf (attributeUnit symbols unit) = packageOf unit := by
    obtain ⟨hunit, _⟩ := unit_of_parseUnit h
    rw [← respelling_untyped.packageOf (regular_attributeUnit h symbols),
      (types_attributeUnit symbols hunit.kind).1,
      respelling_untyped.packageOf ((parsed_of_parseUnit h).imp fun _ => Parsed.regular)]
  obtain ⟨es', below, s', hswept, hresult⟩ := attributeUnit_swept h symbols (leaves_attributing symbols)
  rw [unitClasses, hpackage] at hd
  rw [hresult] at hd
  obtain ⟨child, hchild, hd⟩ := mem_declaredClassesList.1 hd
  obtain ⟨c, i, s₁, s₂, _, hscope, hvisited⟩ :=
    child_of_attributed hswept (everywhere_iff.1 (parsed_of_parseUnit h)).2 hchild
  obtain ⟨hpackage, hclasses⟩ := ofUnit_place unit (symbols.classes.map ClassSymbol.name)
  have hsigned := hvisited.classes d (by rw [hscope, hpackage, hclasses]; exact hd)
  rw [hscope] at hsigned
  exact hsigned

theorem declared_attributeUnit {d : DeclaredClass} (hd : d ∈ unitClasses unit) {member : Node}
    (hmember : member ∈ members d.node) (hkind : member.kind = .java .methodDeclaration)
    {m : Signature} (hm : (d.inside (.ofUnit unit (symbols.classes.map ClassSymbol.name))).method?
      member d.name = some m) : Declared m (attributeUnit symbols unit) := by
  obtain ⟨hunit, _⟩ := unit_of_parseUnit h
  have huntyped := (types_attributeUnit symbols hunit.kind).1
  rw [untyped_eq_self (untyped_of_parseUnit h)] at huntyped
  have hregular := regular_attributeUnit h symbols
  have hnameless : IsNameless (attributeUnit symbols unit).kind := by
    rw [← kind_untyped, huntyped, hunit.kind]
    rfl
  rw [← huntyped, respelling_untyped.unitClasses hregular hnameless] at hd
  obtain ⟨d, hd', rfl⟩ := List.mem_map.1 hd
  have hmember' : member ∈ members d.node.untyped := hmember
  rw [respelling_untyped.members] at hmember'
  obtain ⟨member, hown, rfl⟩ := List.mem_map.1 hmember'
  rw [kind_untyped] at hkind
  have hmem := mem_preorder_trans (mem_preorder_of_member hown) (mem_preorder_of_unitClasses hd')
  have hsigned := signed_attributeUnit h symbols hd' member hown hkind
  have hmemberRegular : member.Everywhere Regular := fun m hm => hregular m (mem_preorder_trans hm hmem)
  have hm' : (d.inside (.ofUnit unit (symbols.classes.map ClassSymbol.name))).method?
      member.untyped d.name = some m := hm
  rw [Scope.method_untyped _ hmemberRegular] at hm'
  rw [hm'] at hsigned
  exact ⟨member, hmem, hkind, hsigned⟩

end

end Codemod.Java
