import Codemod.Text.Split
import Codemod.Tree.Basic

/-!
The parts of Java nodes. The role of a child follows from its place beside others, and each
of these functions knows one such place.
-/

namespace Codemod.Java

open Codemod.Tree

/-- The kind of the list behind the name of a method declaration or a call. -/
def listBehindName? : Tree.Kind → Option Kind
  | .java .methodDeclaration => some .parameters
  | .java .methodInvocation => some .arguments
  | _ => none

/-- The index and the token of the name of a method declaration or a call: the name directly
in front of its list. -/
def methodNameSlot? (n : Node) : Option (Nat × Token) := do
  let list ← listBehindName? n.kind
  match ← n.positionOf? (.java list) with
  | 0 => none
  | index + 1 =>
      let token ← (← n.children[index]?).token?
      if token.kind = .identifier ∨ token.kind = .keyword then some (index, token) else none

/-- The name of a method declaration or a call. -/
def methodName? (n : Node) : Option String :=
  (methodNameSlot? n).map fun slot => slot.2.text

/-- The declaration or call with another name. -/
def withMethodName? (n : Node) (name : String) : Option Node :=
  (methodNameSlot? n).map fun (index, token) =>
    n.withChild index (.token { token with text := name })

/-- The receiver of a call. -/
def receiver? (n : Node) : Option Node :=
  n.children.head?.bind Element.node?

/-- The declaration is a constructor: it has no type. -/
def isConstructor (n : Node) : Bool :=
  n.kind == .java .methodDeclaration && (n.firstChild? (.java .typeTree)).isNone

/-- The declaration has the modifier. -/
def hasModifier (n : Node) (modifier : String) : Bool :=
  (n.firstChild? (.java .modifiers)).any fun m => m.hasToken modifier

/-- The first identifier among the tokens of a node. -/
def firstIdentifier? (n : Node) : Option String :=
  (n.tokens.find? fun t => t.kind == .identifier).map Token.text

/-- The name that a type declaration declares. -/
def className? (n : Node) : Option String :=
  firstIdentifier? n

/-- The import is one of static members. -/
def isStaticImport (n : Node) : Bool :=
  n.kind == .java .importClause && n.hasToken "static"

/-- The dotted name of an import or a package. -/
def qualifiedName? (n : Node) : Option String :=
  (n.firstChild? (.java .qualifiedName)).map Node.bareText

/-- The owner and the member of a static import; the member is an asterisk if all are
imported. -/
def staticImportParts? (n : Node) : Option (String × String) := do
  if isStaticImport n then
    let name ← qualifiedName? n
    let (owner, member) ← Text.splitLast '.' name.toList
    some (String.ofList owner, String.ofList member)
  else none

/-- The import with another name in place of the last one. -/
def withImportMember? (n : Node) (member : String) : Option Node := do
  let nameIndex ← n.positionOf? (.java .qualifiedName)
  let name ← (← n.children[nameIndex]?).node?
  let index ← lastIndex? (fun e => e.token?.any fun t => t.kind == .identifier) name.children
  let token ← (← name.children[index]?).token?
  some (n.withChild nameIndex (.node (name.withChild index (.token { token with text := member }))))

/-- The name that a parameter, a resource or a catch clause declares. -/
def declaredName? (n : Node) : Option String :=
  ((n.tokens.filter fun t => t.kind == .identifier).getLast?).map Token.text

/-- The number of brackets behind a declared name. -/
def dimensions (n : Node) : Nat :=
  n.childNodes.countP fun c => c.kind == .java .dimension

end Codemod.Java
