import Codemod.Java.Bindings
import Codemod.Java.Type
import Codemod.Text.Split

/-!
The classes of a source set, what they declare, and which of their methods a call with certain
arguments means.
-/

namespace Codemod.Java

/-- What is known about a class. -/
structure ClassSymbol where
  name : String
  supertypes : List String := []
  methods : List Signature := []
  fields : Bindings TypeRef := []

/-- The last part of a dotted name. -/
def simpleName (name : String) : String :=
  match Text.splitLast '.' name.toList with
  | some (_, last) => String.ofList last
  | none => name

/-- The primitive types that are numbers; each can be given where another is asked for. -/
def numericTypes : List String :=
  ["byte", "short", "char", "int", "long", "float", "double"]

/-- The class whose objects hold a value of a primitive type. -/
def boxed? : String → Option String
  | "boolean" => some "java.lang.Boolean"
  | "byte" => some "java.lang.Byte"
  | "char" => some "java.lang.Character"
  | "short" => some "java.lang.Short"
  | "int" => some "java.lang.Integer"
  | "long" => some "java.lang.Long"
  | "float" => some "java.lang.Float"
  | "double" => some "java.lang.Double"
  | _ => none

/-- The classes of a source set, each name once. -/
structure SymbolTable where
  classes : List ClassSymbol := []

namespace SymbolTable

/-- The class of this name. -/
def class? (table : SymbolTable) (name : String) : Option ClassSymbol :=
  table.classes.find? fun c => c.name == name

/-- The table has a class of this name. -/
def contains (table : SymbolTable) (name : String) : Bool :=
  (table.class? name).isSome

/-- Adds a class, in place of one of the same name. -/
def insert (table : SymbolTable) (c : ClassSymbol) : SymbolTable :=
  ⟨table.classes.filter (fun d => d.name != c.name) ++ [c]⟩

/-- The classes that are reached from those still to visit, after those seen, in at most
`limit` steps. -/
def lineageWithin (table : SymbolTable) :
    Nat → List ClassSymbol → List String → List ClassSymbol
  | 0, seen, _ => seen
  | _, seen, [] => seen
  | limit + 1, seen, name :: rest =>
      match table.class? name with
      | none => table.lineageWithin limit seen rest
      | some c =>
          if seen.any fun d => d.name == c.name then table.lineageWithin limit seen rest
          else table.lineageWithin limit (seen ++ [c]) (c.supertypes ++ rest)

/-- A class and its supertypes as far as the table has them, each once, the nearest first.
Each class is expanded once, so each supertype is visited once. -/
def lineage (table : SymbolTable) (name : String) : List ClassSymbol :=
  table.lineageWithin ((table.classes.flatMap ClassSymbol.supertypes).length + 1) [] [name]

/-- A class is another one or extends it. -/
def isSubtype (table : SymbolTable) (name ancestor : String) : Bool :=
  (table.lineage name).any fun c => c.name == ancestor

/-- The type of a field of a class or its supertypes. -/
def field? (table : SymbolTable) (name field : String) : Option TypeRef :=
  (table.lineage name).findSome? fun c => c.fields.get? field

/-- An argument can be given for a parameter. What is unknown fits anywhere, and two classes
of one simple name are taken for the same. -/
def assignable (table : SymbolTable) : TypeRef → TypeRef → Bool
  | .unknown, _ | _, .unknown => true
  | .primitive a, .primitive p =>
      a == p || numericTypes.contains a && numericTypes.contains p
  | .primitive a, .named p => p == "java.lang.Object" || boxed? a == some p
  | .named a, .primitive p => boxed? p == some a
  | .named a, .named p =>
      p == "java.lang.Object" || a == p || simpleName a == simpleName p || table.isSubtype a p
  | .array a, .array p => table.assignable a p
  | .array _, .named p => p == "java.lang.Object"
  | .primitive _, .array _ | .named _, .array _ | .array _, .primitive _ => false

/-- Each argument can be given for the parameter in its place, as far as both go. -/
def allAssignable (table : SymbolTable) (arguments parameters : List TypeRef) : Bool :=
  (arguments.zip parameters).all fun (a, p) => table.assignable a p

/-- The arguments fit the parameters one by one. -/
def fitsFixed (table : SymbolTable) (m : Signature) (arguments : List TypeRef) : Bool :=
  m.parameters.length == arguments.length && table.allAssignable arguments m.parameters

/-- The arguments fit the parameters where the last parameter stands for any number of
them. -/
def fitsVariable (table : SymbolTable) (m : Signature) (arguments : List TypeRef) : Bool :=
  match m.parameters.getLast? with
  | some (.array element) =>
      let fixed := m.parameters.dropLast
      fixed.length ≤ arguments.length && table.allAssignable arguments fixed
        && (arguments.drop fixed.length).all fun a => table.assignable a element
  | _ => false

/-- The methods of this name of a class and its supertypes. -/
def candidates (table : SymbolTable) (name method : String) : List Signature :=
  (table.lineage name).flatMap fun c => c.methods.filter fun m => m.name == method

/-- The method that a call means: the first whose parameters the arguments fit one by one,
else the first that takes any number of them. -/
def findMethod? (table : SymbolTable) (name method : String) (arguments : List TypeRef) :
    Option Signature :=
  let candidates := table.candidates name method
  (candidates.find? fun m => table.fitsFixed m arguments) <|>
    candidates.find? fun m => m.isVarargs && table.fitsVariable m arguments

end SymbolTable

end Codemod.Java
