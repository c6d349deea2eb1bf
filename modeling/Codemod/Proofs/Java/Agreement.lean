import Codemod.Proofs.Java.Attributed
import Codemod.Proofs.Java.Tables
import Codemod.Proofs.Tree.Walks

/-!
Attribution with tables of symbols that agree. A walk with one of them is followed by the walk with
the other: at each node the contexts hold the same variables and differ in the order of the known
classes only, so expressions have the same types, calls mean the same methods, and the units get the
same attribution.
-/

namespace Codemod.Java

open Codemod.Tree

/-! ### Contexts -/

/-- The contexts differ in the order of the known classes only. -/
structure Context.Agrees (context context' : Context) : Prop where
  scope : context'.scope = { context.scope with known := context'.scope.known }
  known : ∀ name, name ∈ context'.scope.known ↔ name ∈ context.scope.known
  locals : context'.locals = context.locals

namespace Context.Agrees

variable {context context' : Context} (h : context.Agrees context')
include h

theorem classes : context'.scope.classes = context.scope.classes := by
  rw [h.scope]

theorem staticImports : context'.scope.staticImports = context.scope.staticImports := by
  rw [h.scope]

theorem nameFor : context'.scope.nameFor = context.scope.nameFor := by
  rw [h.scope]
  rfl

theorem resolveName : context'.scope.resolveName = context.scope.resolveName := by
  rw [h.scope]
  exact Scope.resolveName_known context.scope h.known

theorem push (frame : Bindings TypeRef) : (context.push frame).Agrees (context'.push frame) where
  scope := h.scope
  known := h.known
  locals := congrArg (frame :: ·) h.locals

theorem pop : context.pop.Agrees context'.pop where
  scope := h.scope
  known := h.known
  locals := congrArg List.tail h.locals

theorem declare (name : String) (type : TypeRef) :
    (context.declare name type).Agrees (context'.declare name type) := by
  rw [Context.declare, Context.declare, h.locals]
  split
  · exact h
  · exact ⟨h.scope, h.known, rfl⟩

theorem declareAll (declared : List (String × TypeRef)) :
    (declared.foldl (fun context v => context.declare v.1 v.2) context).Agrees
      (declared.foldl (fun context v => context.declare v.1 v.2) context') := by
  induction declared generalizing context context' with
  | nil => exact h
  | cons v declared ih => exact ih (h.declare v.1 v.2)

theorem withClasses (classes : List String) :
    ({ context with scope := { context.scope with classes } } : Context).Agrees
      { context' with scope := { context'.scope with classes } } where
  scope := by
    show { context'.scope with classes } = _
    rw [h.scope]
  known := h.known
  locals := h.locals

theorem enter (n : Node) : (context.enter n).Agrees (context'.enter n) := by
  rw [Context.enter, Context.enter]
  split
  · cases className? n with
    | none => exact h.push []
    | some simple =>
        simp only [h.nameFor, Scope.enter, h.classes]
        exact (h.withClasses _).push []
  · have hframe : parameterFrame context'.scope n = parameterFrame context.scope n := by
      simp only [parameterFrame, Scope.parameterType_congr h.resolveName]
    rw [hframe]
    exact h.push _
  · have hframe : catchFrame context'.scope n = catchFrame context.scope n := by
      simp only [catchFrame, Scope.childType_congr h.resolveName]
    rw [hframe]
    exact h.push _
  all_goals first | exact h.push [] | exact h

end Context.Agrees

/-! ### Expressions and calls -/

section
variable {symbols symbols' : SymbolTable} {context context' : Context}
  (hsymbols : symbols.Agrees symbols') (hcontext : context.Agrees context')
include hsymbols hcontext

theorem classType_agrees : context'.classType? symbols' = context.classType? symbols := by
  funext name
  simp only [Context.classType?, hcontext.resolveName, hsymbols.contains]

theorem nameType_agrees : nameType symbols' context' = nameType symbols context := by
  funext name
  have hvariable : context'.variableType? symbols' name = context.variableType? symbols name := by
    simp only [Context.variableType?, hcontext.locals, hcontext.classes, hsymbols.field]
  unfold nameType
  simp only [Scope.currentClass?, hcontext.classes, hsymbols.find, hvariable,
    classType_agrees hsymbols hcontext]

theorem memberType_agrees : memberType symbols' context' = memberType symbols context := by
  funext target member
  simp only [memberType, hsymbols.field, classType_agrees hsymbols hcontext]

end

mutual

theorem typeOf_agrees {symbols symbols' : SymbolTable} {context context' : Context}
    (hsymbols : symbols.Agrees symbols') (hcontext : context.Agrees context') : (n : Node) →
    typeOf symbols' context' n = typeOf symbols context n
  | ⟨kind, lead, children, markers, type?⟩ => by
      unfold typeOf
      simp only [nameType_agrees hsymbols hcontext, memberType_agrees hsymbols hcontext,
        hsymbols.contains, Scope.childType_congr hcontext.resolveName,
        typesOf_agrees hsymbols hcontext children]

theorem typesOf_agrees {symbols symbols' : SymbolTable} {context context' : Context}
    (hsymbols : symbols.Agrees symbols') (hcontext : context.Agrees context') :
    (es : List Element) → typesOf symbols' context' es = typesOf symbols context es
  | [] => rfl
  | .token _ :: es => by
      rw [typesOf, typesOf, typesOf_agrees hsymbols hcontext es, typeOfElement, typeOfElement]
  | .node n :: es => by
      rw [typesOf, typesOf, typesOf_agrees hsymbols hcontext es, typeOfElement, typeOfElement,
        typeOf_agrees hsymbols hcontext n]

end

section
variable {symbols symbols' : SymbolTable} {context context' : Context}
  (hsymbols : symbols.Agrees symbols') (hcontext : context.Agrees context')
include hsymbols hcontext

theorem resolveCall_agrees (call : Node) :
    resolveCall? symbols' context' call = resolveCall? symbols context call := by
  have htypes : typeOf symbols' context' = typeOf symbols context :=
    funext (typeOf_agrees hsymbols hcontext)
  simp only [resolveCall?, unqualifiedCall?, importedMethod?, htypes, hsymbols.findMethod,
    hcontext.classes, hcontext.staticImports]

end

/-! ### Units -/

section
variable {context context' : Context} (h : context.Agrees context')
include h

theorem leaveClass_agrees (n : Node) :
    (leaveClass n context').1 = (leaveClass n context).1 ∧
      (leaveClass n context).2.Agrees (leaveClass n context').2 := by
  simp only [leaveClass, h.pop.classes]
  split
  · exact ⟨rfl, h.pop⟩
  · exact ⟨rfl, h.pop.withClasses _⟩

theorem leaveMethod_agrees (n : Node) (cursor : Cursor) :
    (leaveMethod n cursor context').1 = (leaveMethod n cursor context).1 ∧
      (leaveMethod n cursor context).2.Agrees (leaveMethod n cursor context').2 := by
  have hmethod : context'.pop.scope.method? n = context.pop.scope.method? n :=
    funext (Scope.method_congr h.pop.resolveName n)
  simp only [leaveMethod, Scope.currentClass?, h.pop.classes, hmethod]
  split_ifs
  · exact ⟨rfl, h.pop⟩
  · split <;> exact ⟨rfl, h.pop⟩

theorem declareResource_agrees (n : Node) :
    (declareResource n context).Agrees (declareResource n context') := by
  simp only [declareResource, Scope.resolveTree_congr h.resolveName]
  split
  · exact h.declare _ _
  · exact h

theorem declareVariables_agrees {symbols symbols' : SymbolTable}
    (hsymbols : symbols.Agrees symbols') (n : Node) (cursor : Cursor) :
    (declareVariables symbols n cursor context).Agrees
      (declareVariables symbols' n cursor context') := by
  have htypes : typeOf symbols' context' = typeOf symbols context :=
    funext (typeOf_agrees hsymbols h)
  simp only [declareVariables, Scope.declaredVariables_congr h.resolveName, htypes]
  split_ifs
  · exact h
  · exact h.declareAll _

end

theorem follows_attribution {symbols symbols' : SymbolTable} (hsymbols : symbols.Agrees symbols') :
    (attributionHooks symbols).visitor.rewriter.Follows (attributionHooks symbols').visitor.rewriter
      Context.Agrees := by
  apply Rewriter.follows_of_visitors
  case henter => exact fun n _ _ _ h => ⟨rfl, h.enter n⟩
  case hleave =>
    intro n cursor context context' h
    simp only [Hooks.visitor]
    split
    · rename_i kind _
      split_ifs
      · cases kind
        case classDeclaration => exact leaveClass_agrees h n
        case methodDeclaration => exact leaveMethod_agrees h n cursor
        case variableDeclaration => exact ⟨rfl, declareVariables_agrees h hsymbols n cursor⟩
        case resource => exact ⟨rfl, declareResource_agrees h n⟩
        case methodInvocation =>
          refine ⟨?_, h⟩
          simp only [attributionHooks, leaveCall, resolveCall_agrees hsymbols h]
        case block => exact ⟨rfl, h.pop⟩
        case tryStatement => exact ⟨rfl, h.pop⟩
        case catchClause => exact ⟨rfl, h.pop⟩
        case initializerBlock => exact ⟨rfl, h.pop⟩
        all_goals exact ⟨rfl, h⟩
      · exact ⟨rfl, h⟩
    · exact ⟨rfl, h⟩

theorem attributeUnit_agrees {symbols symbols' : SymbolTable} (hsymbols : symbols.Agrees symbols')
    {unit : Node} (hkind : unit.kind = .java .compilationUnit) :
    attributeUnit symbols' unit = attributeUnit symbols unit := by
  have haccepts : ∀ symbols, (attributionHooks symbols).visitor.accepts unit = true := by
    simp [Hooks.visitor, hkind]
  have hends : ∀ context, (attributionHooks symbols).visitor.rewriter.Ends unit context :=
    Rewriter.ends_of_addsNoLevels (fun _ _ _ => Nat.le_refl _) unit
  rw [attributeUnit, attributeUnit, Visitor.walk, Visitor.walk,
    Rewriter.walk_follows (follows_attribution hsymbols) (haccepts symbols) (haccepts symbols')
      (hends _) ?_]
  refine ⟨?_, fun name => ?_, rfl⟩
  · simp only [Scope.known_ofUnit]
    exact Scope.ofUnit_known unit _ _
  · simp only [Scope.known_ofUnit]
    exact hsymbols.mem_names

end Codemod.Java
