import Codemod.Java.Declarations
import Codemod.Java.Hooks

/-!
Attribution: class declarations get their full name, method declarations their signature, and
calls the method that they mean. A call into a class outside the source set gets nothing, so
that no pattern selects it.
-/

namespace Codemod.Java

open Codemod.Tree

/-- What is in scope at a place of a walk: the names of types, and the types of variables in
one frame for each construct that limits them, the innermost first. -/
structure Context where
  scope : Scope
  locals : List (Bindings TypeRef) := []

namespace Context

/-- Binds a variable in the innermost frame. -/
def declare (context : Context) (name : String) (type : TypeRef) : Context :=
  match context.locals with
  | [] => context
  | frame :: rest => { context with locals := frame.put name type :: rest }

/-- Opens a frame. -/
def push (context : Context) (frame : Bindings TypeRef) : Context :=
  { context with locals := frame :: context.locals }

/-- Closes the innermost frame. -/
def pop (context : Context) : Context :=
  { context with locals := context.locals.tail }

/-- The type of a variable: a local one, else a field of a class around the place. -/
def variableType? (symbols : SymbolTable) (context : Context) (name : String) :
    Option TypeRef :=
  context.locals.findSome? (·.get? name)
    <|> context.scope.classes.findSome? fun c => symbols.field? c name

/-- The known class that a name in front of a dot means. -/
def classType? (symbols : SymbolTable) (context : Context) (name : String) : Option TypeRef :=
  match context.scope.resolveName name with
  | .named full => if symbols.contains full then some (.named full) else none
  | _ => none

end Context

/-- The type of a literal. -/
def literalType (text : String) : TypeRef :=
  let cs := text.toList
  let hex := ['0', 'x'].isPrefixOf cs || ['0', 'X'].isPrefixOf cs
  let endsIn (letters : List Char) : Bool := (cs.getLast?).any letters.contains
  if cs.head? == some '"' then .string
  else if cs.head? == some '\'' then .primitive "char"
  else if text == "true" || text == "false" then .primitive "boolean"
  else if text == "null" then .unknown
  else if endsIn ['L', 'l'] then .primitive "long"
  else if !hex && endsIn ['f', 'F'] then .primitive "float"
  else if !hex && (endsIn ['d', 'D'] || cs.any ['.', 'e', 'E'].contains) then .primitive "double"
  else .primitive "int"

/-- The operators that give a truth value. -/
def truthOperators : List String :=
  ["==", "!=", "<", ">", "<=", ">=", "&&", "||", "instanceof"]

/-- The type of an operation on operands of these types. Most have the type of the first
one. -/
def binaryType (operator : String) (operands : List TypeRef) : TypeRef :=
  let left := operands.head?.getD .unknown
  if truthOperators.contains operator then .primitive "boolean"
  else if operator == "+" then
    let right := operands.tail.getLast?.getD .unknown
    if left == .string || right == .string then .string else left
  else left

/-- The type of a name that stands as an expression. -/
def nameType (symbols : SymbolTable) (context : Context) (name : String) : TypeRef :=
  match name with
  | "this" => (context.scope.currentClass?.map .named).getD .unknown
  | "super" =>
      (((context.scope.currentClass?.bind symbols.class?).bind fun c =>
        c.supertypes.head?).map .named).getD .unknown
  | _ =>
      (context.variableType? symbols name <|> context.classType? symbols name).getD .unknown

/-- The type of a member of what has the type `target`. -/
def memberType (symbols : SymbolTable) (context : Context) (target : Option TypeRef)
    (member : String) : TypeRef :=
  match target with
  | some (.array _) => if member == "length" then .primitive "int" else .unknown
  | some (.named owner) =>
      (symbols.field? owner member
        <|> context.classType? symbols (owner ++ "." ++ member)).getD .unknown
  | _ => .unknown

mutual

/-- The type of an expression; the calls in it have been attributed. -/
def typeOf (symbols : SymbolTable) (context : Context) : Node → TypeRef
  | n@⟨kind, _, children, _, type?⟩ =>
      match kind with
      | .java .literal => (n.tokens.head?.map fun t => literalType t.text).getD .unknown
      | .java .identifier =>
          (n.tokens.head?.map fun t => nameType symbols context t.text).getD .unknown
      | .java .fieldAccess =>
          if symbols.contains n.bareText then .named n.bareText
          else
            match n.tokens.getLast? with
            | some field =>
                memberType symbols context (typesOf symbols context children).head? field.text
            | none => .unknown
      | .java .methodInvocation =>
          ((type?.bind TypeInfo.method?).map Signature.returns).getD .unknown
      | .java .newClass | .java .cast => context.scope.childType n
      | .java .newArray =>
          if (n.firstChild? (.java .typeTree)).isSome then
            (context.scope.childType n).arrays (dimensions n)
          else .unknown
      | .java .parenthesized | .java .unary =>
          if n.hasToken "!" then .primitive "boolean"
          else (typesOf symbols context children).head?.getD .unknown
      | .java .conditional => (typesOf symbols context children)[1]?.getD .unknown
      | .java .arrayAccess =>
          match (typesOf symbols context children).head? with
          | some (.array element) => element
          | _ => .unknown
      | .java .binary =>
          binaryType (String.join (n.tokens.map Token.text)) (typesOf symbols context children)
      | _ => .unknown

/-- The type of a child node. -/
def typeOfElement (symbols : SymbolTable) (context : Context) : Element → Option TypeRef
  | .node n => some (typeOf symbols context n)
  | .token _ => none

/-- The types of the nodes among some children. -/
def typesOf (symbols : SymbolTable) (context : Context) : List Element → List TypeRef
  | [] => []
  | e :: es => (typeOfElement symbols context e).toList ++ typesOf symbols context es

end

/-- The static method that an import brings in for a call. -/
def importedMethod? (symbols : SymbolTable) (scope : Scope) (name : String)
    (arguments : List TypeRef) : Option Signature :=
  let owners := (scope.staticImports.filter fun i => i.2 == name || i.2 == "*").map Prod.fst
  (owners.findSome? fun owner => symbols.findMethod? owner name arguments).filter fun m =>
    m.isStatic

/-- The method that a call without receiver means: one of the innermost class that has one,
else an imported one. -/
def unqualifiedCall? (symbols : SymbolTable) (scope : Scope) (name : String)
    (arguments : List TypeRef) : Option TypeInfo :=
  if name == "this" || name == "super" then none
  else
    match scope.classes.findSome? fun c => symbols.findMethod? c name arguments with
    | some m => some (.invocation m false)
    | none => (importedMethod? symbols scope name arguments).map fun m => .invocation m true

/-- The method that a call means. -/
def resolveCall? (symbols : SymbolTable) (context : Context) (call : Node) : Option TypeInfo := do
  let name ← methodName? call
  let list ← call.firstChild? (.java .arguments)
  let arguments := list.childNodes.map (typeOf symbols context)
  match receiver? call with
  | some receiver =>
      let owner ← (typeOf symbols context receiver).className?
      let m ← symbols.findMethod? owner name arguments
      some (.invocation m false)
  | none => unqualifiedCall? symbols context.scope name arguments

/-- The frame of a method's parameters. -/
def parameterFrame (scope : Scope) (declaration : Node) : Bindings TypeRef :=
  (Scope.parametersOf declaration).foldl
    (fun frame p =>
      match declaredName? p with
      | some name => frame.put name (scope.parameterType p)
      | none => frame)
    []

/-- The frame of a caught exception. Where several types are caught it has none of them. -/
def catchFrame (scope : Scope) (clause : Node) : Bindings TypeRef :=
  match declaredName? clause with
  | some name =>
      [(name, if clause.hasToken "|" then .unknown else scope.childType clause)]
  | none => []

/-- The context inside a node. -/
def Context.enter (context : Context) (n : Node) : Context :=
  match n.kind with
  | .java .classDeclaration =>
      let scope :=
        match className? n with
        | some simple => context.scope.enter (context.scope.nameFor simple)
        | none => context.scope
      { context with scope }.push []
  | .java .methodDeclaration => context.push (parameterFrame context.scope n)
  | .java .catchClause => context.push (catchFrame context.scope n)
  | .java .block | .java .tryStatement | .java .initializerBlock => context.push []
  | _ => context

/-- A class ends: it gets its full name. -/
def leaveClass (n : Node) (context : Context) : Option Node × Context :=
  let context := context.pop
  match context.scope.classes with
  | [] => (none, context)
  | name :: outer =>
      ( some { n with type? := some (.type name) },
        { context with scope := { context.scope with classes := outer } } )

/-- A method ends: it gets its signature, unless it is a member of an object that is
created. -/
def leaveMethod (n : Node) (cursor : Cursor) (context : Context) : Option Node × Context :=
  let context := context.pop
  if cursor.ancestors[1]?.any fun owner => owner.kind == .java .newClass then (none, context)
  else
    match context.scope.currentClass?.bind (context.scope.method? n) with
    | some m => (some { n with type? := some (.method m) }, context)
    | none => (none, context)

/-- The kinds of body whose variables are fields. -/
def isBody (n : Node) : Bool :=
  n.kind == .java .classBody || n.kind == .java .enumBody

/-- Variables become visible behind their declaration. Fields are in the symbol table
already. -/
def declareVariables (symbols : SymbolTable) (n : Node) (cursor : Cursor) (context : Context) :
    Context :=
  if cursor.parent?.any isBody then context
  else
    (context.scope.declaredVariables n (typeOf symbols context)).foldl
      (fun context v => context.declare v.1 v.2) context

/-- A declared resource becomes visible behind its declaration. -/
def declareResource (n : Node) (context : Context) : Context :=
  match n.firstChild? (.java .typeTree), firstIdentifier? n with
  | some tree, some name => context.declare name (context.scope.resolveTree tree)
  | _, _ => context

/-- A call gets the method that it means. -/
def leaveCall (symbols : SymbolTable) (n : Node) (context : Context) : Option Node × Context :=
  ((resolveCall? symbols context n).map fun info => { n with type? := some info }, context)

/-- What attribution does at the nodes of a unit. -/
def attributionHooks (symbols : SymbolTable) : Hooks Context where
  enter := fun n _ context => (none, context.enter n)
  leave := fun kind n cursor context =>
    match kind with
    | .classDeclaration => leaveClass n context
    | .methodDeclaration => leaveMethod n cursor context
    | .block | .tryStatement | .catchClause | .initializerBlock => (none, context.pop)
    | .variableDeclaration => (none, declareVariables symbols n cursor context)
    | .resource => (none, declareResource n context)
    | .methodInvocation => leaveCall symbols n context
    | _ => (none, context)

/-- A unit with what a table of symbols tells about it. -/
def attributeUnit (symbols : SymbolTable) (unit : Node) : Node :=
  let context : Context := { scope := Scope.ofUnit unit (symbols.classes.map ClassSymbol.name) }
  (((attributionHooks symbols).visitor.walk unit context).1).getD unit

/-- The units of a source set, each with what all of them tell about it. -/
def attributeAll (units : List Node) : List Node :=
  units.map (attributeUnit (SymbolTable.ofUnits units))

end Codemod.Java
