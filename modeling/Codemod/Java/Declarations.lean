import Codemod.Java.Scope
import Codemod.Java.Symbols

/-!
The classes that the units of a source set declare, and the table of their symbols.
-/

namespace Codemod.Java

open Codemod.Tree

/-- A class declaration with its full name and the classes around it, the innermost first. -/
structure DeclaredClass where
  name : String
  outer : List String
  node : Node

mutual

/-- The classes that a member or a body declares, each in front of those inside it. -/
def declaredClasses (package : String) (outer : List String) : Node → List DeclaredClass
  | n@⟨kind, _, children, _, _⟩ =>
      match kind with
      | .java .classDeclaration =>
          match className? n with
          | some simple =>
              let name := qualify (outer.head?.getD package) simple
              ⟨name, outer, n⟩ :: declaredClassesList package (name :: outer) children
          | none => []
      | .java .classBody | .java .enumBody => declaredClassesList package outer children
      | _ => []

/-- The classes that a child declares. -/
def declaredClassesElement (package : String) (outer : List String) :
    Element → List DeclaredClass
  | .node n => declaredClasses package outer n
  | .token _ => []

/-- The classes that some children declare. -/
def declaredClassesList (package : String) (outer : List String) :
    List Element → List DeclaredClass
  | [] => []
  | e :: es => declaredClassesElement package outer e ++ declaredClassesList package outer es

end

/-- The classes that a unit declares. Classes in the bodies of methods are not among them. -/
def unitClasses (unit : Node) : List DeclaredClass :=
  declaredClassesList (packageOf unit) [] unit.children

/-- The members in the body of a class. -/
def members (declaration : Node) : List Node :=
  (declaration.childNodes.filter fun c =>
    c.kind == .java .classBody || c.kind == .java .enumBody).flatMap Node.childNodes

/-- The types that a class extends or implements. -/
def supertypeTrees (declaration : Node) : List Node :=
  (declaration.childNodes.filter fun c =>
    c.kind == .java .extendsClause || c.kind == .java .implementsClause).flatMap Node.childNodes

/-- The symbol of a class with what a member declares, where `scope` is that inside the
class. -/
def ClassSymbol.addMember (scope : Scope) (c : ClassSymbol) (member : Node) : ClassSymbol :=
  match member.kind with
  | .java .methodDeclaration =>
      { c with methods := c.methods ++ (scope.method? member c.name).toList }
  | .java .variableDeclaration =>
      let declared := scope.declaredVariables member fun _ => .unknown
      { c with fields := declared.foldl (fun fields f => fields.put f.1 f.2) c.fields }
  | .java .enumConstants =>
      let constants := member.childNodes.filterMap firstIdentifier?
      { c with fields := constants.foldl (fun fields f => fields.put f (.named c.name)) c.fields }
  | _ => c

/-- The symbol of a declared class, where `scope` is that of its unit. -/
def DeclaredClass.symbol (scope : Scope) (c : DeclaredClass) : ClassSymbol :=
  let inside := { scope with classes := c.name :: c.outer }
  let supertypes := (supertypeTrees c.node).filterMap fun t => (inside.resolveTree t).className?
  (members c.node).foldl (ClassSymbol.addMember inside) { name := c.name, supertypes }

/-- The symbols of the classes that a unit declares. -/
def unitSymbols (known : List String) (unit : Node) : List ClassSymbol :=
  (unitClasses unit).map (DeclaredClass.symbol (Scope.ofUnit unit known))

/-- The names of all classes of a source set. -/
def knownClasses (units : List Node) : List String :=
  units.flatMap fun unit => (unitClasses unit).map DeclaredClass.name

/-- The symbols of a source set. Of two classes of one name the later stays. -/
def SymbolTable.ofUnits (units : List Node) : SymbolTable :=
  (units.flatMap (unitSymbols (knownClasses units))).foldl SymbolTable.insert {}

end Codemod.Java
