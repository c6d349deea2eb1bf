import Codemod.Java.Grammar.Expression

/-!
The grammar of modifiers, variables and statements.
-/

namespace Codemod.Java.Grammar

open Codemod.Tree Codemod.Java.Parser

/-- The keywords that begin a statement which is not supported. -/
def unsupportedStatements : List String :=
  ["for", "do", "switch", "synchronized", "assert", "class", "interface", "enum"]

/-- The token modifies a declaration. -/
def isModifier (token : Token) : Bool :=
  token.kind == .keyword && modifierWords.contains token.text

/-- A modifier or an annotation is ahead. A lock is a statement, and the declaration of an
annotation type is no annotation. -/
def modifierAhead : Parser Bool := do
  if ← sees "@" then return !(← sees "interface" 1)
  else if ← test isModifier then
    if ← sees "synchronized" then return !(← sees "(" 1) else return true
  else return false

/-- A single semicolon. -/
def empty : Parser Node :=
  build .empty [tok (take ";")]

variable (g : Grammar)

/-- An annotation with its arguments. -/
def annotationUse : Parser Node :=
  build .annotationUse
    [tok (take "@"), one (qualifiedName false), optional (sees "(") (one (arguments g))]

/-- The modifiers and annotations of a declaration as one node, if there are any. -/
def modifiers : Parser (List Element) := do
  let children ← manyWhile modifierAhead do
    if ← sees "@" then one (annotationUse g) else tok (takeIf isModifier .identifier)
  if children.isEmpty then return []
  else return [.node (Node.hoisted (.java .modifiers) children)]

/-- A variable with its brackets and its initial value. -/
def namedVariable : Parser Node :=
  build .namedVariable
    [ tok takeIdentifier,
      manyWhile (sees "[") (one (dimension g false)),
      optional (sees "=")
        (parts
          [ tok (take "="),
            do if ← sees openBrace then one (arrayInit g) else one (g .expression) ]) ]

/-- The variables of one declaration. -/
def declarators : Parser Node :=
  build .declarators [commaList (namedVariable g)]

/-- A type is ahead with a name behind it that is then initialized or ended. -/
def declarationAhead : Parser Bool := do
  let primitive ← test isPrimitive
  let member ← sees "." 1
  if primitive && !member then return true
  else
    foresee do
      let _ ← typeTree g true
      if ← test isIdentifier then test (isOneOf ["=", ";", ",", "[", ":"]) 1
      else return false

/-- The declaration of a variable is ahead, which may have modifiers. -/
def variableAhead : Parser Bool := do
  if ← test (isOneOf ["final", "@"]) then return true else declarationAhead g

/-- A declaration of variables in a block. -/
def localVariable : Parser Node :=
  build .variableDeclaration
    [modifiers g, one (typeTree g true), one (declarators g), tok (take ";")]

/-- Statements between braces. -/
def block : Parser Node :=
  build .block
    [ tok (take openBrace), manyWhile (return !(← sees closeBrace)) (one (g .statement)),
      tok (take closeBrace) ]

/-- A resource of a try statement: a declared variable or an expression. -/
def resource : Parser Node := do
  if ← variableAhead g then
    build .resource
      [ modifiers g, one (typeTree g true), tok takeIdentifier, tok (take "="),
        one (g .expression) ]
  else build .resource [one (expression g)]

/-- A handler with the types that it catches. -/
def catchClause : Parser Node :=
  build .catchClause
    [ tok (take "catch"), tok (take "("), modifiers g, one (typeTree g true),
      manyWhile (sees "|") (parts [tok (take "|"), one (g .type)]),
      tok takeIdentifier, tok (take ")"), one (block g) ]

/-- What is done in any case. -/
def finallyClause : Parser Node :=
  build .finallyClause [tok (take "finally"), one (block g)]

/-- A try statement. One without resources has a handler. -/
def tryStatement : Parser Node := do
  let keyword ← tok (take "try")
  let resources ← optional (sees "(")
    (one (delimited .tryResources "(" ")" .semicolon (resource g)))
  let body ← one (block g)
  let handlers ← parts
    [ manyWhile (sees "catch") (one (catchClause g)),
      optional (sees "finally") (one (finallyClause g)) ]
  if handlers.isEmpty && resources.isEmpty then expected .handler
  else return Node.hoisted (.java .tryStatement) (keyword ++ resources ++ body ++ handlers)

/-- A keyword with a value where there is one. -/
def valueStatement (kind : Kind) (keyword : String) : Parser Node :=
  build kind
    [ tok (take keyword), optional (return !(← sees ";")) (one (g .expression)),
      tok (take ";") ]

/-- A keyword with a label where there is one. -/
def jumpStatement : Parser Node :=
  build .jumpStatement
    [ tok (takeIf (isOneOf ["break", "continue"]) (.sign "break")),
      optional (test isIdentifier) (tok takeIdentifier), tok (take ";") ]

/-- A condition with a statement for either case. -/
def ifStatement : Parser Node :=
  build .ifStatement
    [ tok (take "if"), one (parenthesized g), one (g .statement),
      optional (sees "else") (parts [tok (take "else"), one (g .statement)]) ]

/-- A loop with its condition in front. -/
def whileStatement : Parser Node :=
  build .whileStatement [tok (take "while"), one (parenthesized g), one (g .statement)]

/-- Fails at the keyword of an unsupported statement. -/
def rejectStatement : Parser Node := do
  let tokens ← get
  unsupported (.statement (tokens.nth 0).text)

/-- An identifier with a colon behind it. -/
def labelAhead : Parser Bool := do
  if ← test isIdentifier then sees ":" 1 else return false

/-- A statement of a block. -/
def statement : Parser Node := do
  if ← sees openBrace then block g
  else if ← sees ";" then empty
  else if ← sees "return" then valueStatement g .returnStatement "return"
  else if ← sees "throw" then valueStatement g .throwStatement "throw"
  else if ← test (isOneOf ["break", "continue"]) then jumpStatement
  else if ← sees "if" then ifStatement g
  else if ← sees "while" then whileStatement g
  else if ← sees "try" then tryStatement g
  else if ← test (isOneOf unsupportedStatements) then rejectStatement
  else if ← labelAhead then unsupported .labeledStatement
  else if ← variableAhead g then localVariable g
  else build .expressionStatement [one (expression g), tok (take ";")]

end Codemod.Java.Grammar
