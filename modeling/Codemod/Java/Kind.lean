/-!
The kinds of node in a tree of Java source.
-/

namespace Codemod.Java

/-- What a node of a Java tree stands for. -/
inductive Kind where
  | compilationUnit
  | packageClause
  | importClause
  | qualifiedName
  | modifiers
  | annotationUse
  | classDeclaration
  | typeParameters
  | typeParameter
  | extendsClause
  | implementsClause
  | classBody
  | enumBody
  | enumConstants
  | enumConstant
  | methodDeclaration
  | parameters
  | parameter
  | throwsClause
  | initializerBlock
  | variableDeclaration
  | declarators
  | namedVariable
  | block
  | empty
  | expressionStatement
  | returnStatement
  | throwStatement
  | jumpStatement
  | ifStatement
  | whileStatement
  | tryStatement
  | tryResources
  | resource
  | catchClause
  | finallyClause
  | identifier
  | literal
  | fieldAccess
  | methodInvocation
  | arguments
  | newClass
  | newArray
  | dimension
  | arrayInit
  | arrayAccess
  | binary
  | unary
  | parenthesized
  | conditional
  | cast
  | typeTree
  | typeArguments
deriving DecidableEq, Repr

/-- The kinds that stand as statements in a block. -/
def Kind.isStatement : Kind → Bool
  | .block | .empty | .expressionStatement | .variableDeclaration | .returnStatement
  | .throwStatement | .jumpStatement | .ifStatement | .whileStatement | .tryStatement => true
  | _ => false

/-- The kinds that have a value. -/
def Kind.isExpression : Kind → Bool
  | .identifier | .literal | .fieldAccess | .methodInvocation | .newClass | .newArray
  | .arrayInit | .arrayAccess | .binary | .unary | .parenthesized | .conditional | .cast => true
  | _ => false

end Codemod.Java
