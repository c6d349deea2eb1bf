import Codemod.Proofs.Java.Places
import Codemod.Proofs.Java.StaticImports

/-!
What a call without receiver means that no class around it has a method for. Each static import of its
name is asked for a method of its owner, in the order of the imports, and the first one that has any
decides: only if that method is static does the call mean it. An owner with an instance method for
the call is in the way of the owners behind it.
-/

namespace Codemod.Java

open Codemod.Tree

/-- The arguments of a call. -/
def argumentsOf (call : Node) : List Node :=
  ((call.firstChild? (.java .arguments)).map Node.childNodes).getD []

theorem exists_arguments {call : Node} {name : String} (hkind : call.kind = .java .methodInvocation)
    (h : methodName? call = some name) : ∃ list, call.firstChild? (.java .arguments) = some list := by
  obtain ⟨slot, hslot, _⟩ := Option.map_eq_some_iff.1 h
  rw [methodNameSlot?, hkind] at hslot
  simp only [listBehindName?, Option.bind_eq_bind, Option.bind_some] at hslot
  obtain ⟨index, hindex, _⟩ := Option.bind_eq_some_iff.1 hslot
  obtain ⟨hlength, hlist, -⟩ := List.findIdx?_eq_some_iff_getElem.1 hindex
  obtain ⟨hnode, hlist⟩ := (Option.any_eq_true_iff_get _ _).1 hlist
  refine Option.isSome_iff_exists.1 (List.find?_isSome.2 ⟨_, ?_, hlist⟩)
  exact List.mem_filterMap.2 ⟨_, List.getElem_mem hlength, (Option.some_get hnode).symm⟩

theorem resolveCall_free {symbols : SymbolTable} {context : Context} {call : Node} {name : String}
    (hkind : call.kind = .java .methodInvocation) (hname : methodName? call = some name)
    (hfree : receiver? call = none) :
    resolveCall? symbols context call =
      unqualifiedCall? symbols context.scope name ((argumentsOf call).map (typeOf symbols context)) := by
  obtain ⟨list, hlist⟩ := exists_arguments hkind hname
  simp only [resolveCall?, hname, hlist, hfree, argumentsOf, Option.bind_eq_bind, Option.bind_some,
    Option.map_some, Option.getD_some]

/-- An import of this member is one of the name. -/
def Names (name member : String) : Prop :=
  member = name ∨ member = "*"

/-- Of some static imports, the first one of the name whose owner has a method for the arguments,
static or not, has this one. -/
def BringsIn (symbols : SymbolTable) (imports : List (String × String)) (name : String)
    (arguments : List TypeRef) (m : Signature) : Prop :=
  ∃ before owner member behind, imports = before ++ (owner, member) :: behind ∧
    Names name member ∧ symbols.findMethod? owner name arguments = some m ∧
    ∀ other ∈ before, Names name other.2 → symbols.findMethod? other.1 name arguments = none

section
variable {symbols : SymbolTable} {name : String} {arguments : List TypeRef} {m : Signature}

theorem brought_eq_some {parts : String × String} :
    brought? symbols name arguments parts = some m ↔
      Names name parts.2 ∧ symbols.findMethod? parts.1 name arguments = some m := by
  rw [brought?]
  split_ifs with h
  · exact (and_iff_right h).symm
  · exact iff_of_false not_false fun hm => h hm.1

theorem brought_eq_none {parts : String × String} :
    brought? symbols name arguments parts = none ↔
      (Names name parts.2 → symbols.findMethod? parts.1 name arguments = none) := by
  rw [brought?]
  split_ifs with h
  · exact ⟨fun hnone _ => hnone, fun hnone => hnone h⟩
  · exact ⟨fun _ hname => absurd hname h, fun _ => rfl⟩

theorem bringsIn_iff {imports : List (String × String)} :
    imports.findSome? (brought? symbols name arguments) = some m ↔
      BringsIn symbols imports name arguments m := by
  rw [List.findSome?_eq_some_iff]
  constructor
  · rintro ⟨before, ⟨owner, member⟩, behind, rfl, hm, hbefore⟩
    obtain ⟨hname, hm⟩ := brought_eq_some.1 hm
    exact ⟨before, owner, member, behind, rfl, hname, hm,
      fun other hother => brought_eq_none.1 (hbefore other hother)⟩
  · rintro ⟨before, owner, member, behind, rfl, hname, hm, hbefore⟩
    exact ⟨before, (owner, member), behind, rfl, brought_eq_some.2 ⟨hname, hm⟩,
      fun other hother => brought_eq_none.2 (hbefore other hother)⟩

theorem unqualifiedCall_imported {scope : Scope} (hname : name ≠ "this" ∧ name ≠ "super")
    (hclasses : ∀ c ∈ scope.classes, symbols.findMethod? c name arguments = none) :
    (∀ m, unqualifiedCall? symbols scope name arguments = some (.invocation m true) ↔
        BringsIn symbols scope.staticImports name arguments m ∧ m.isStatic = true) ∧
      (unqualifiedCall? symbols scope name arguments = none ↔
        ∀ m, BringsIn symbols scope.staticImports name arguments m → m.isStatic = false) := by
  have hnone : (scope.classes.findSome? fun c => symbols.findMethod? c name arguments) = none :=
    List.findSome?_eq_none_iff.2 hclasses
  have hcall : unqualifiedCall? symbols scope name arguments =
      (importedMethod? symbols scope name arguments).map fun m => .invocation m true := by
    rw [unqualifiedCall?, if_neg (by simpa using hname), hnone]
  rw [hcall, importedMethod_eq]
  simp only [← bringsIn_iff]
  cases scope.staticImports.findSome? (brought? symbols name arguments) with
  | none => simp
  | some found => cases hstatic : found.isStatic <;> simp [hstatic]

end

/-- A call without receiver, for which no class around it has a method, carries a method through a
static import exactly if the first static import of its name whose owner has any method for its
arguments has a static one, and that method; else it carries nothing. -/
theorem free_call_imported {source : String} {unit : Node} (hparse : parseUnit source = .ok unit)
    (symbols : SymbolTable) {cursor : Cursor} {call : Node} {name : String}
    (hcall : Stands (attributeUnit symbols unit) cursor call)
    (hkind : call.kind = .java .methodInvocation) (hfree : receiver? call = none)
    (hname : methodName? call = some name) (hplain : name ≠ "this" ∧ name ≠ "super") :
    ∃ context, LeftIn symbols unit cursor.untyped { call with type? := none } context ∧
      let arguments := (argumentsOf call).map (typeOf symbols context)
      let imports := unit.childNodes.filterMap staticImportParts?
      (∀ c ∈ classesAround (packageOf unit) cursor, symbols.findMethod? c name arguments = none) →
        (∀ m, call.type? = some (.invocation m true) ↔
          BringsIn symbols imports name arguments m ∧ m.isStatic = true) ∧
        (call.type? = none ↔
          ∀ m, BringsIn symbols imports name arguments m → m.isStatic = false) := by
  obtain ⟨v, context, hleft, hnone, rfl⟩ := leftIn_of_stands hparse hcall
  have hself : ({ v with type? := none } : Node) = v := withType_self hnone
  refine ⟨context, hself.symm ▸ hleft, ?_⟩
  intro arguments imports hclasses
  have hscope := scope_of_leftIn hparse hleft 0
  have haround : context.scope.classes = classesAround (packageOf unit) cursor := by
    rw [hscope]
    show classesAround (packageOf unit) (⟨v, 0⟩ :: cursor.untyped) = _
    rw [classesAround_other (by rw [show v.kind = _ from hkind]; decide), classesAround_untyped]
  have himports : context.scope.staticImports = imports := by
    rw [hscope]
    exact Scope.staticImports_ofUnit unit _
  have htype : found? symbols v cursor.untyped context =
      unqualifiedCall? symbols context.scope name arguments := by
    rw [found_call (n := v) hkind]
    exact resolveCall_free hkind hname hfree
  rw [← himports, show ({ v with type? := found? symbols v cursor.untyped context } : Node).type? =
    unqualifiedCall? symbols context.scope name arguments from htype]
  exact unqualifiedCall_imported hplain (haround ▸ hclasses)

/-- A static method behind an instance method of the same name that is imported in front of it: the
call carries nothing. -/
theorem free_call_imported_behind :
    let source := "package p; import static p.A.foo; import static p.B.foo; " ++
      "class A \x7b void foo() \x7b\x7d \x7d class B \x7b static void foo() \x7b\x7d \x7d " ++
      "class T \x7b void t() \x7b foo(); \x7d \x7d"
    ∃ unit, parseUnit source = .ok unit ∧
      let symbols := SymbolTable.ofUnits [unit]
      ("p.B", "foo") ∈ unit.childNodes.filterMap staticImportParts? ∧
        (∃ m, symbols.findMethod? "p.B" "foo" [] = some m ∧ m.isStatic = true) ∧
        ∃ cursor call, Stands (attributeUnit symbols unit) cursor call ∧
          call.kind = .java .methodInvocation ∧ receiver? call = none ∧
          methodName? call = some "foo" ∧
          (∀ c ∈ classesAround (packageOf unit) cursor, symbols.findMethod? c "foo" [] = none) ∧
          call.type? = none := by
  intro source
  have hparses : (parseUnit source).toOption.any (fun unit =>
      let symbols := SymbolTable.ofUnits [unit]
      let imports := unit.childNodes.filterMap staticImportParts?
      imports.contains ("p.B", "foo") &&
        (symbols.findMethod? "p.B" "foo" []).any (fun m => m.isStatic) &&
        (imports.findSome? (brought? symbols "foo" [])).all (fun m => !m.isStatic) &&
        (placeFrom [] (attributeUnit symbols unit) [5, 2, 1, 3, 1, 0]).any fun (cursor, call) =>
          call.kind == .java .methodInvocation && (receiver? call).isNone &&
            methodName? call == some "foo" && (argumentsOf call).isEmpty &&
            (classesAround (packageOf unit) cursor).all fun c =>
              (symbols.findMethod? c "foo" []).isNone) = true := by
    decide +kernel
  obtain ⟨unit, hunit, hparses⟩ := exists_ok_of_any hparses
  simp only [Bool.and_eq_true, List.contains_iff_mem, Option.any_eq_true, Option.all_eq_true,
    Bool.not_eq_true', Prod.exists, beq_iff_eq, Option.isNone_iff_eq_none, List.isEmpty_iff,
    List.all_eq_true] at hparses
  obtain ⟨⟨⟨himport, hstatic⟩, hfirst⟩, cursor, call, hplace, ⟨⟨⟨hkind, hfree⟩, hname⟩, hempty⟩,
    hclasses⟩ := hparses
  have hcall := stands_of_placeFrom .root hplace
  obtain ⟨context, -, hmeans⟩ :=
    free_call_imported hunit (.ofUnits [unit]) hcall hkind hfree hname (by decide)
  rw [hempty] at hmeans
  refine ⟨unit, hunit, himport, hstatic, cursor, call, hcall, hkind, hfree, hname, hclasses, ?_⟩
  exact (hmeans hclasses).2.2 fun m hm => hfirst m (bringsIn_iff.2 hm)

end Codemod.Java
