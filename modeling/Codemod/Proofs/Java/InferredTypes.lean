import Codemod.Proofs.Java.RetypedVisits

/-!
Variables whose type is left to be inferred. Behind a local variable with `var` for its type the
variable has the type of its initial value, and attribution finds out the same about the whole unit as
if that type were written there. A resource of a `try` is another matter: its type is taken for the
name of a class, `var` too.
-/

namespace Codemod.Java

open Codemod.Tree

/-! ### Frames around a declaration -/

/-- A node of this kind can stand outside of all classes. -/
def Kind.isOuter : Kind → Bool
  | .compilationUnit | .packageClause | .importClause | .qualifiedName | .empty
  | .classDeclaration => true
  | _ => false

theorem isOuter_of_holds {k parent : Kind} (h : k ∈ parent.holds) (hparent : parent.isOuter = true)
    (hopens : opensFrame (.java parent) = false) : k.isOuter = true := by
  have hall : ∀ parent : Kind, parent.isOuter = true → opensFrame (.java parent) = false →
      ∀ k ∈ parent.holds, k.isOuter = true := by
    intro parent
    cases parent <;> decide
  exact hall parent hparent hopens k h

section
variable {root : Node} (hnested : root.Everywhere Nested) (hunit : root.kind = .java .compilationUnit)
include hnested hunit

theorem opens_of_stands {cursor : Cursor} {n : Node} (h : Stands root cursor n) {k : Kind}
    (hk : n.kind = .java k) (houter : k.isOuter = false) :
    ∃ frame ∈ cursor, opensFrame frame.node.kind = true := by
  induction h generalizing k with
  | root =>
      cases hunit.symm.trans hk
      cases houter
  | @child cursor parent n before behind h hchildren ih =>
      obtain ⟨parentKind, hparent, hheld⟩ := kind_of_parent hnested hunit (h.child hchildren) hk
      cases hopens : opensFrame parent.kind with
      | true => exact ⟨_, List.mem_cons_self, hopens⟩
      | false =>
          have hparentOuter : parentKind.isOuter = false := by
            rw [hparent] at hopens
            cases hisOuter : parentKind.isOuter with
            | false => rfl
            | true => exact (isOuter_of_holds hheld hisOuter hopens).symm.trans houter
          obtain ⟨frame, hframe, hkind⟩ := ih hparent hparentOuter
          exact ⟨frame, List.mem_cons_of_mem _ hframe, hkind⟩

end

section
variable {symbols : SymbolTable} {unit v : Node} {cursor : Cursor} {context : Context}
  (h : LeftIn symbols unit cursor v context)
include h

theorem passes_of_leftIn :
    Passes symbols unit (.atUnit symbols unit) cursor
      ((attributionHooks symbols).visitor.leave v cursor context).2 := by
  obtain ⟨n, t, es, changed, hreaches, hswept, rfl⟩ := h
  exact ⟨n, t, _, hreaches, Visitor.visits_of_swept (enter_keeps symbols) hswept⟩

theorem locals_of_leftIn {source : String} (hparse : parseUnit source = .ok unit) {k : Kind}
    (hk : v.kind = .java k) (houter : k.isOuter = false) (hopens : opensFrame (.java k) = false) :
    context.locals ≠ [] := by
  obtain ⟨n, t, es, changed, hreaches, hswept, rfl⟩ := h
  have hlocals := locals_of_reaches hreaches
    (opens_of_stands (nested_of_parseUnit hparse) (unit_of_parseUnit hparse).1.kind
      hreaches.stands hk houter)
  have hextends := extends_swept hswept fun _ _ _ _ _ _ hvisits => extends_visits hvisits
  have henter : ((attributionHooks symbols).visitor.enter n cursor t).2 = t :=
    enter_other (by rw [show n.kind = _ from hk, hopens]) t
  rw [henter] at hextends
  rw [← List.length_pos_iff, hextends.length]
  exact List.length_pos_iff.2 hlocals

end

/-! ### Declarations with an inferred type -/

/-- Behind the declaration the name means this one of its variables. -/
def Declares (d declared : Node) (name : String) : Prop :=
  ∃ list before behind, d.firstChild? (.java .declarators) = some list ∧
    list.childNodes = before ++ declared :: behind ∧
      declared.tokens.head?.map Token.text = some name ∧
        ∀ later ∈ behind, later.tokens.head?.map Token.text ≠ some name

/-- In the context the type tree means the type of the initial value of each variable of the
declaration, so that it can be written in place of `var`. -/
structure Spells (symbols : SymbolTable) (context : Context) (d tree : Node) : Prop where
  kind : tree.kind = .java .typeTree
  untyped : tree.Everywhere fun n => n.type? = none
  nested : tree.Everywhere Nested
  explicit : tree.bareText ≠ "var"
  types : ∀ list, d.firstChild? (.java .declarators) = some list → ∀ declared ∈ list.childNodes,
    (Scope.initialValue? declared).map (typeOf symbols context) =
      some (context.scope.resolveTree tree)

/-- A variable of a declaration with the type that `type` gives. -/
def declaredVariable? (type : Node → TypeRef) (declared : Node) : Option (String × TypeRef) :=
  declared.tokens.head?.map fun name =>
    (name.text, (type declared).arrays (dimensions declared))

theorem declaredVariables_inferred {scope : Scope} {d tree list : Node} {infer : Node → TypeRef}
    (htree : d.firstChild? (.java .typeTree) = some tree) (hvar : tree.bareText = "var")
    (hlist : d.firstChild? (.java .declarators) = some list) :
    scope.declaredVariables d infer = list.childNodes.filterMap (declaredVariable? fun declared =>
      ((Scope.initialValue? declared).map infer).getD .unknown) := by
  rw [Scope.declaredVariables, htree, hlist]
  simp only [hvar, beq_self_eq_true, if_true]
  rfl

theorem declaredVariables_explicit {scope : Scope} {d tree list : Node} {infer : Node → TypeRef}
    (htree : d.firstChild? (.java .typeTree) = some tree) (hvar : tree.bareText ≠ "var")
    (hlist : d.firstChild? (.java .declarators) = some list) :
    scope.declaredVariables d infer =
      list.childNodes.filterMap (declaredVariable? fun _ => scope.resolveTree tree) := by
  rw [Scope.declaredVariables, htree, hlist]
  simp only [beq_eq_false_iff_ne.2 hvar]
  rfl

section
variable {symbols : SymbolTable} {context : Context} {d tree : Node} {cursor : Cursor}
  (hkind : d.kind = .java .variableDeclaration) (htree : d.firstChild? (.java .typeTree) = some tree)
  (hvar : tree.bareText = "var")
include hkind htree hvar

theorem local_inferred (hlocal : cursor.parent?.any isBody = false)
    (hlocals : context.locals ≠ []) {declared e : Node} {name : String} (h : Declares d declared name)
    (he : Scope.initialValue? declared = some e) :
    ((attributionHooks symbols).visitor.leave d cursor context).2.local? name =
      some ((typeOf symbols context e).arrays (dimensions declared)) := by
  obtain ⟨list, before, behind, hlist, hnodes, hname, hlast⟩ := h
  have hdeclared : declaredVariable? (fun declared =>
        ((Scope.initialValue? declared).map (typeOf symbols context)).getD .unknown) declared =
      some (name, (typeOf symbols context e).arrays (dimensions declared)) := by
    obtain ⟨t, ht, rfl⟩ := Option.map_eq_some_iff.1 hname
    rw [declaredVariable?, ht, he]
    rfl
  rw [after_variable hkind, declareVariables, hlocal, if_neg (by decide),
    declaredVariables_inferred htree hvar hlist, hnodes, List.filterMap_append,
    List.filterMap_cons_some hdeclared]
  refine local_declareAll hlocals fun hmem => ?_
  obtain ⟨v, hv, rfl⟩ := List.mem_map.1 hmem
  obtain ⟨later, hlater, hsome⟩ := List.mem_filterMap.1 hv
  obtain ⟨t, ht, rfl⟩ := Option.map_eq_some_iff.1 hsome
  exact hlast later hlater (by rw [ht]; rfl)

theorem leave_retype {tree' : Node} (h : Spells symbols context d tree') :
    ((attributionHooks symbols).visitor.leave (retype d tree') cursor context).2 =
      ((attributionHooks symbols).visitor.leave d cursor context).2 := by
  obtain ⟨hkindTree, front, back, hchildren, hfront⟩ := exists_typeTree htree
  have htree' := firstChild_retype hchildren hkindTree hfront h.kind
  have hlist' : (retype d tree').firstChild? (.java .declarators) = d.firstChild? (.java .declarators) :=
    firstChild_retype_other hchildren hkindTree hfront h.kind (by decide)
  have hsame : context.scope.declaredVariables (retype d tree') (typeOf symbols context) =
      context.scope.declaredVariables d (typeOf symbols context) := by
    cases hlist : d.firstChild? (.java .declarators) with
    | none => rw [Scope.declaredVariables, Scope.declaredVariables, hlist', hlist, htree, htree']
    | some list =>
        rw [declaredVariables_inferred htree hvar hlist,
          declaredVariables_explicit htree' h.explicit (hlist'.trans hlist)]
        refine List.filterMap_congr fun declared hdeclared => ?_
        rw [declaredVariable?, declaredVariable?, h.types list hlist declared hdeclared]
        rfl
  rw [after_variable hkind, after_variable ((kind_retype d tree').trans hkind), declareVariables,
    declareVariables, hsame]

end

theorem local_resource {symbols : SymbolTable} {context : Context} {d tree : Node} {cursor : Cursor}
    (hkind : d.kind = .java .resource) (htree : d.firstChild? (.java .typeTree) = some tree)
    (hlocals : context.locals ≠ []) {name : String} (hname : firstIdentifier? d = some name) :
    ((attributionHooks symbols).visitor.leave d cursor context).2.local? name =
      some (context.scope.resolveTree tree) := by
  rw [after_resource hkind, declareResource, htree, hname]
  exact local_declare_self hlocals name _

/-- Behind a local variable declaration with `var` for its type each variable has the type of its
initial value, and attribution finds out the same about the unit as with that type in place of `var`.
Behind a resource with `var` for its type the variable has the type that `var` means as a name. -/
theorem inferred_variables {front back : List Node} {unit : Node}
    (hunits : ∀ u ∈ front ++ unit :: back, ∃ source, parseUnit source = .ok u) {cursor : Cursor}
    {d tree : Node} :
    let symbols := SymbolTable.ofUnits (front ++ unit :: back)
    Stands (attributeUnit symbols unit) cursor d →
      d.kind = .java .variableDeclaration ∨ d.kind = .java .resource →
        d.firstChild? (.java .typeTree) = some tree → tree.bareText = "var" →
          ∃ context, LeftIn symbols unit cursor.untyped d context ∧
            (d.kind = .java .variableDeclaration → cursor.parent?.any isBody = false →
              (∀ declared name e, Declares d declared name →
                Scope.initialValue? declared = some e →
                  ReadAs symbols unit cursor.untyped name
                    ((typeOf symbols context e).arrays (dimensions declared))) ∧
              ∀ tree', Spells symbols context d tree' →
                let written := cursor.plug (retype d tree')
                SymbolTable.ofUnits (front ++ written.untyped :: back) = symbols ∧
                  attributeUnit symbols written.untyped = written) ∧
            (d.kind = .java .resource → ∀ name, firstIdentifier? d = some name →
              ReadAs symbols unit cursor.untyped name (context.scope.resolveTree tree)) := by
  intro symbols hd hkind htree hvar
  obtain ⟨source, hparse⟩ := hunits unit (by simp)
  obtain ⟨v, context, hleft, hnone, hfound⟩ := leftIn_of_stands hparse hd
  have hsame : v.kind = d.kind := by rw [hfound]
  obtain rfl : d = v := by rw [hfound, found_variable (hsame ▸ hkind), withType_self hnone]
  have hbrace : ∀ c ∈ symbols.classes, '\x7b' ∉ c.name.toList := fun c hc =>
    outside_of_class hunits (by decide) hc
  refine ⟨context, hleft, fun hvariable hlocal => ⟨fun declared name e hdeclares he => ?_,
    fun tree' hspells => ?_⟩, fun hresource name hname => ?_⟩
  · have hlocals := locals_of_leftIn hleft hparse hvariable rfl rfl
    exact readAs_of_passes (passes_of_leftIn hleft) (local_inferred hvariable htree hvar
      (sameKinds_untyped.isBody.trans hlocal) hlocals hdeclares he)
  · obtain ⟨hretyped, hattributed⟩ := attributeUnit_retype hparse hbrace hd hleft hvariable hlocal
      htree hspells.kind hspells.untyped hspells.nested (leave_retype hvariable htree hvar hspells)
    exact ⟨hretyped.ofUnits front back, hattributed⟩
  · have hlocals := locals_of_leftIn hleft hparse hresource rfl rfl
    exact readAs_of_passes (passes_of_leftIn hleft) (local_resource hresource htree hlocals hname)

/-- A local variable and a resource with `var` for their types and the same initial value: the variable is
read as an object of its class, while the resource is taken for one of a class with the name `var`, so
that the call on it carries nothing. -/
theorem inferred_variables_resource :
    let source := "class R \x7b void f() \x7b\x7d \x7d class T \x7b void t() \x7b var s = new R(); " ++
      "try (var r = new R()) \x7b r.f(); \x7d \x7d \x7d"
    ∃ unit, parseUnit source = .ok unit ∧
      let symbols := SymbolTable.ofUnits [unit]
      (∃ cursor d type, Stands (attributeUnit symbols unit) cursor d ∧
        d.bareText = "vars=newR();" ∧ ReadAs symbols unit cursor.untyped "s" (.named "R") ∧
          type.bareText = "R" ∧
            let written := cursor.plug (retype d type)
            attributeUnit symbols written.untyped = written) ∧
      (∃ cursor d, Stands (attributeUnit symbols unit) cursor d ∧ d.bareText = "varr=newR()" ∧
        ReadAs symbols unit cursor.untyped "r" (.named "var")) ∧
      ∃ cursor call, Stands (attributeUnit symbols unit) cursor call ∧
        call.kind = .java .methodInvocation ∧ call.bareText = "r.f()" ∧ call.type? = none := by
  intro source
  have hparses : (parseUnit source).toOption.any (fun unit =>
      let symbols := SymbolTable.ofUnits [unit]
      let attributed := attributeUnit symbols unit
      ((placeFrom [] attributed [1, 2, 1, 3, 1]).any fun (cursor, d) =>
        let scope := scopeAt symbols unit (⟨d, 0⟩ :: cursor.untyped)
        d.bareText == "vars=newR();" && d.kind == .java .variableDeclaration &&
          !cursor.parent?.any isBody &&
          (d.firstChild? (.java .typeTree)).any (fun tree => tree.bareText == "var") &&
          (d.firstChild? (.java .declarators)).any fun list =>
            list.childNodes.all (fun declared => (Scope.initialValue? declared).any fun e =>
              e.kind == .java .newClass && scope.childType e == .named "R") &&
            (list.childNodes.getLast?.any fun declared =>
              declared.tokens.head?.map Token.text == some "s" && dimensions declared == 0) &&
            (placeFrom [] attributed [1, 2, 1, 3, 1, 1, 0, 2, 1]).any fun (_, type) =>
              type.kind == .java .typeTree && type.bareText == "R" &&
                type.preorder.all (fun n => n.type?.isNone) &&
                scope.resolveTree type == .named "R") &&
      ((placeFrom [] attributed [1, 2, 1, 3, 2, 1, 1]).any fun (cursor, d) =>
        d.bareText == "varr=newR()" && d.kind == .java .resource && firstIdentifier? d == some "r" &&
          (d.firstChild? (.java .typeTree)).any fun tree =>
            tree.bareText == "var" &&
              (scopeAt symbols unit (⟨d, 0⟩ :: cursor.untyped)).resolveTree tree == .named "var") &&
      (placeFrom [] attributed [1, 2, 1, 3, 2, 2, 1, 0]).any fun (_, call) =>
        call.kind == .java .methodInvocation && call.bareText == "r.f()" && call.type?.isNone) = true := by
    decide +kernel
  obtain ⟨unit, hunit, hparses⟩ := exists_ok_of_any hparses
  simp only [Bool.and_eq_true, Option.any_eq_true, Prod.exists, beq_iff_eq, Bool.not_eq_true',
    List.all_eq_true, Option.isNone_iff_eq_none] at hparses
  obtain ⟨⟨⟨cursor, d, hplace, ⟨⟨⟨hdText, hkind⟩, hlocal⟩, tree, htree, hvar⟩, list, hlist, ⟨hvalues,
    declared, hdeclared, hname, hdimensions⟩, cursor', type, htypePlace, ⟨⟨htypeKind, htypeText⟩,
    huntyped⟩, hmeans⟩, resource, r, hrPlace, ⟨⟨hrText, hrKind⟩, hrName⟩, rTree, hrTree, hrVar,
    hrMeans⟩, callCursor, call, hcallPlace, ⟨hcallKind, hcallText⟩, hnothing⟩ := hparses
  have hunits : ∀ u ∈ [] ++ unit :: [], ∃ source, parseUnit source = .ok u := by
    simpa using ⟨source, hunit⟩
  have hd := stands_of_placeFrom .root hplace
  have hr := stands_of_placeFrom .root hrPlace
  have htypeStands := stands_of_placeFrom .root htypePlace
  obtain ⟨context, hleft, hvariable, -⟩ :=
    inferred_variables hunits hd (.inl hkind) htree hvar
  obtain ⟨hread, hspelled⟩ := hvariable hkind hlocal
  obtain ⟨rContext, hrLeft, -, hresource⟩ :=
    inferred_variables hunits hr (.inr hrKind) hrTree hrVar
  -- Each initial value creates an object of the class that the other type tree names.
  have hscope : context.scope =
      scopeAt (SymbolTable.ofUnits [unit]) unit (⟨d, 0⟩ :: cursor.untyped) :=
    scope_of_leftIn hunit hleft 0
  have hcreates : ∀ e : Node, e.kind = .java .newClass →
      typeOf (SymbolTable.ofUnits [unit]) context e = context.scope.childType e := by
    rintro ⟨kind, lead, children, markers, type?⟩ ⟨⟩
    rfl
  rw [← hscope] at hvalues hmeans
  obtain ⟨front, hnodes⟩ := List.getLast?_eq_some_iff.1 hdeclared
  obtain ⟨e, he, heKind, heType⟩ := hvalues declared (List.mem_of_getLast? hdeclared)
  have hdeclares : Declares d declared "s" := ⟨list, front, [], hlist, hnodes, hname, nofun⟩
  have hspells : Spells (SymbolTable.ofUnits [unit]) context d type := by
    refine ⟨htypeKind, huntyped, fun m hm => nested_attributeUnit hunit _ m
      (mem_preorder_trans hm htypeStands.mem), by rw [htypeText]; decide,
      fun list' hlist' declared' hdeclared' => ?_⟩
    obtain rfl : list = list' := Option.some.inj (hlist.symm.trans hlist')
    obtain ⟨e', he', heKind', heType'⟩ := hvalues declared' hdeclared'
    rw [he', Option.map_some, hcreates e' heKind', heType', hmeans]
  have hs : ReadAs (SymbolTable.ofUnits [unit]) unit cursor.untyped "s"
      ((typeOf (SymbolTable.ofUnits [unit]) context e).arrays (dimensions declared)) :=
    hread declared "s" e hdeclares he
  rw [hcreates e heKind, heType, hdimensions] at hs
  have hrScope : rContext.scope =
      scopeAt (SymbolTable.ofUnits [unit]) unit (⟨r, 0⟩ :: resource.untyped) :=
    scope_of_leftIn hunit hrLeft 0
  have hrRead := hresource hrKind "r" hrName
  rw [hrScope, hrMeans] at hrRead
  exact ⟨unit, hunit, ⟨cursor, d, type, hd, hdText, hs, htypeText, (hspelled type hspells).2⟩,
    ⟨resource, r, hr, hrText, hrRead⟩, callCursor, call, stands_of_placeFrom .root hcallPlace,
    hcallKind, hcallText, hnothing⟩

end Codemod.Java
