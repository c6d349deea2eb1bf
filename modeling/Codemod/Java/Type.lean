/-!
Types and method signatures as attribution attaches them to a tree.
-/

namespace Codemod.Java

/-- A resolved type. -/
inductive TypeRef where
  | primitive (name : String)
  | named (name : String)
  | array (element : TypeRef)
  | unknown
deriving DecidableEq, Repr

namespace TypeRef

/-- The class of character strings. -/
def string : TypeRef :=
  .named "java.lang.String"

/-- The innermost element type, and how many arrays stand around it. -/
def arrayParts : TypeRef → TypeRef × Nat
  | .array element => (element.arrayParts.1, element.arrayParts.2 + 1)
  | type => (type, 0)

/-- The name of a class type. -/
def className? : TypeRef → Option String
  | .named name => some name
  | _ => none

/-- The type as it is written, with the class name in full. -/
def display : TypeRef → String
  | .primitive name | .named name => name
  | .array element => element.display ++ "[]"
  | .unknown => "<unknown>"

/-- The type with a number of arrays around it. -/
def arrays (type : TypeRef) : Nat → TypeRef
  | 0 => type
  | n + 1 => .array (type.arrays n)

theorem arrays_arrayParts (type : TypeRef) :
    type.arrayParts.1.arrays type.arrayParts.2 = type := by
  induction type with
  | array element ih => simp [arrayParts, arrays, ih]
  | primitive name => rfl
  | named name => rfl
  | unknown => rfl

end TypeRef

/-- A resolved method. -/
structure Signature where
  declaringType : String
  name : String
  parameters : List TypeRef
  returns : TypeRef
  isStatic : Bool
  /-- The last parameter was declared with an ellipsis. -/
  isVarargs : Bool
deriving DecidableEq, Repr

namespace Signature

/-- The parameter list as it is written; a variable last parameter ends in an ellipsis. -/
def displayParameters (isVarargs : Bool) : List TypeRef → List String
  | [] => []
  | [.array element] => [if isVarargs then element.display ++ "..." else element.display ++ "[]"]
  | type :: rest => type.display :: displayParameters isVarargs rest

/-- The method with its class and its parameter types. -/
def display (method : Signature) : String :=
  method.declaringType ++ " " ++ method.name ++ "("
    ++ String.intercalate "," (displayParameters method.isVarargs method.parameters) ++ ")"

end Signature

/-- What attribution found out about a node. -/
inductive TypeInfo where
  /-- A type declaration, with its full name. -/
  | type (name : String)
  /-- A method or constructor declaration. -/
  | method (method : Signature)
  /-- A call and the method it resolved to; the flag tells that the call has no receiver
  and resolved through a static import. -/
  | invocation (method : Signature) (viaStaticImport : Bool)
deriving DecidableEq, Repr

namespace TypeInfo

/-- The method of a declaration or a call. -/
def method? : TypeInfo → Option Signature
  | .type _ => none
  | .method m | .invocation m _ => some m

/-- The full name of a type declaration. -/
def className? : TypeInfo → Option String
  | .type name => some name
  | _ => none

/-- The same with the method called by another name. -/
def renamed (info : TypeInfo) (name : String) : TypeInfo :=
  match info with
  | .type c => .type c
  | .method m => .method { m with name }
  | .invocation m viaStaticImport => .invocation { m with name } viaStaticImport

end TypeInfo

end Codemod.Java
