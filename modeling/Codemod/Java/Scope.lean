import Codemod.Java.Access
import Codemod.Java.Bindings
import Codemod.Java.Token.Basic

/-!
What names of types mean at a place of a unit: nested classes first, then imports, the package
and the classes that need no import.
-/

namespace Codemod.Java

open Codemod.Tree

/-- The classes of the implicit package that are known by name. -/
def implicitClasses : List String :=
  [ "AutoCloseable", "Boolean", "Byte", "CharSequence", "Character", "Class", "Comparable",
    "Deprecated", "Double", "Enum", "Error", "Exception", "Float", "FunctionalInterface",
    "IllegalArgumentException", "IllegalStateException", "Integer", "Iterable", "Long", "Math",
    "NullPointerException", "Number", "Object", "Override", "Runnable", "RuntimeException",
    "Short", "String", "StringBuilder", "SuppressWarnings", "System", "Thread", "Throwable",
    "UnsupportedOperationException", "Void" ]

/-- A name inside a package or a class. -/
def qualify (outer name : String) : String :=
  if outer.isEmpty then name else outer ++ "." ++ name

/-- The names that a place of a unit can refer to. -/
structure Scope where
  /-- All classes of the source set. -/
  known : List String
  package : String
  /-- The full names of imported classes by their simple names. -/
  singleImports : Bindings String := []
  onDemandImports : List String := []
  /-- The owners and members of static imports. -/
  staticImports : List (String × String) := []
  /-- The classes around the place, the innermost first. -/
  classes : List String := []

/-- The package of a unit. -/
def packageOf (unit : Node) : String :=
  ((unit.firstChild? (.java .packageClause)).bind qualifiedName?).getD ""

/-- What stands in front of the asterisk of an import of all classes. -/
def onDemandPackage? (name : String) : Option String :=
  match Text.splitLast '.' name.toList with
  | some (package, ['*']) => some (String.ofList package)
  | _ => none

namespace Scope

/-- The scope with the names that an import brings in. -/
def addImport (scope : Scope) (clause : Node) : Scope :=
  match staticImportParts? clause, qualifiedName? clause with
  | some parts, _ => { scope with staticImports := scope.staticImports ++ [parts] }
  | none, none => scope
  | none, some name =>
      match onDemandPackage? name with
      | some package => { scope with onDemandImports := scope.onDemandImports ++ [package] }
      | none =>
          let simple := (Text.splitLast '.' name.toList).map fun parts => String.ofList parts.2
          { scope with singleImports := scope.singleImports.put (simple.getD name) name }

/-- The scope at the top of a unit. -/
def ofUnit (unit : Node) (known : List String) : Scope :=
  (unit.childNodes.filter fun c => c.kind == .java .importClause).foldl addImport
    { known, package := packageOf unit }

/-- The innermost class around the place. -/
def currentClass? (scope : Scope) : Option String :=
  scope.classes.head?

/-- The full name of a class that is declared here. -/
def nameFor (scope : Scope) (simple : String) : String :=
  qualify (scope.currentClass?.getD scope.package) simple

/-- The scope inside a class. -/
def enter (scope : Scope) (name : String) : Scope :=
  { scope with classes := name :: scope.classes }

/-- The first known class among some full names. -/
def firstKnown? (scope : Scope) (names : List String) : Option String :=
  names.find? scope.known.contains

/-- The class that a simple name means. -/
def resolveSimple (scope : Scope) (name : String) : String :=
  (scope.firstKnown? (scope.classes.map fun c => c ++ "." ++ name)
    <|> scope.singleImports.get? name
    <|> scope.firstKnown? [qualify scope.package name]
    <|> scope.firstKnown? (scope.onDemandImports.map fun p => p ++ "." ++ name)).getD
    (if implicitClasses.contains name then "java.lang." ++ name else name)

/-- The type that a name means. A dotted name that is not known in full is looked for inside
the class that its first part means. -/
def resolveName (scope : Scope) (name : String) : TypeRef :=
  if primitives.contains name then .primitive name
  else
    match Text.splitFirst '.' name.toList with
    | none => .named (scope.resolveSimple name)
    | some (head, tail) =>
        let head := String.ofList head
        let inner := scope.resolveSimple head ++ "." ++ String.ofList tail
        if !scope.known.contains name && !primitives.contains head
            && scope.known.contains inner then .named inner
        else .named name

/-- The type that a type tree means. -/
def resolveTree (scope : Scope) (tree : Node) : TypeRef :=
  if tree.hasToken "?" then .named "java.lang.Object"
  else
    let texts := tree.tokens.map Token.text
    let name := String.join (texts.filter fun t => t != "[" && t != "]")
    (scope.resolveName name).arrays (texts.count "[")

/-- The type of the type tree among the children. -/
def childType (scope : Scope) (n : Node) : TypeRef :=
  ((n.firstChild? (.java .typeTree)).map scope.resolveTree).getD .unknown

/-- The type of a parameter. -/
def parameterType (scope : Scope) (parameter : Node) : TypeRef :=
  let ellipsis := if parameter.hasToken "..." then 1 else 0
  (scope.childType parameter).arrays (ellipsis + dimensions parameter)

/-- The parameters of a method declaration. -/
def parametersOf (declaration : Node) : List Node :=
  ((declaration.firstChild? (.java .parameters)).map Node.childNodes).getD []

/-- The method that a declaration in a class declares. A constructor declares none. -/
def method? (scope : Scope) (declaration : Node) (declaringType : String) : Option Signature :=
  if isConstructor declaration then none
  else
    (methodName? declaration).map fun name =>
      { declaringType
        name
        parameters := (parametersOf declaration).map scope.parameterType
        returns := scope.childType declaration
        isStatic := hasModifier declaration "static"
        isVarargs := (parametersOf declaration).any fun p => p.hasToken "..." }

/-- The initial value of a variable. -/
def initialValue? (declared : Node) : Option Node :=
  if declared.hasToken "=" then declared.childNodes.getLast? else none

/-- The variables of a declaration with their types. Where the type is left to be inferred,
`infer` gives that of the initial value. -/
def declaredVariables (scope : Scope) (declaration : Node) (infer : Node → TypeRef) :
    List (String × TypeRef) :=
  match declaration.firstChild? (.java .typeTree),
      declaration.firstChild? (.java .declarators) with
  | some tree, some declarators =>
      declarators.childNodes.filterMap fun declared =>
        declared.tokens.head?.map fun name =>
          let type :=
            if tree.bareText == "var" then ((initialValue? declared).map infer).getD .unknown
            else scope.resolveTree tree
          (name.text, type.arrays (dimensions declared))
  | _, _ => []

end Scope

end Codemod.Java
