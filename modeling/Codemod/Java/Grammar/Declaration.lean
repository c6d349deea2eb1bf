import Codemod.Java.Grammar.Statement

/-!
The grammar of declarations.
-/

namespace Codemod.Java.Grammar

open Codemod.Tree Codemod.Java.Parser

/-- The keywords that begin the declaration of a type. -/
def typeKeywords : List String :=
  ["class", "interface", "enum"]

/-- A record begins with the token. -/
def isRecord (token : Token) : Bool :=
  isIdentifier token && token.text == "record"

/-- The constants with their terminator, which belongs to the last one or, where there is
none, stands by itself. -/
def terminated (constants : List Node) (semicolon : Token) : List Element :=
  match constants.getLast? with
  | some last => (constants.dropLast ++ [closedBy last .semicolon semicolon]).map .node
  | none => [.token semicolon]

variable (g : Grammar)

/-- A constant with its arguments and its body. -/
def enumConstant : Parser Node :=
  build .enumConstant
    [ modifiers g, tok takeIdentifier, optional (sees "(") (one (arguments g)),
      optional (sees openBrace) (one (classBody g)) ]

/-- The constants of an enumeration up to its other members. -/
def enumConstants : Parser Node := do
  let constants ← separated .comma (test (isOneOf [";", closeBrace])) (enumConstant g)
  if ← sees ";" then
    let semicolon ← take ";"
    return Node.hoisted (.java .enumConstants) (terminated constants semicolon)
  else return Node.hoisted (.java .enumConstants) (constants.map .node)

/-- The constants and the other members of an enumeration. -/
def enumBody : Parser Node :=
  build .enumBody
    [ tok (take openBrace), one (enumConstants g),
      manyWhile (return !(← sees closeBrace)) (one (g .member)), tok (take closeBrace) ]

/-- A type declaration behind its modifiers. -/
def classDeclaration (mods : List Element) : Parser Node := do
  if ← sees "@" then unsupported .annotationType
  else if ← test isRecord then unsupported .recordType
  else
    let isEnum ← sees "enum"
    build .classDeclaration
      [ return mods,
        tok (takeIf (isOneOf typeKeywords) .typeKeyword),
        tok takeIdentifier,
        optional (sees "<") (one (typeParameters g)),
        optional (sees "extends") (one (typeList g .extendsClause "extends")),
        optional (sees "implements") (one (typeList g .implementsClause "implements")),
        if isEnum then one (enumBody g) else one (classBody g) ]

/-- A parameter of a method. -/
def parameter : Parser Node :=
  build .parameter
    [ modifiers g, one (typeTree g true), optional (sees "...") (tok (take "...")),
      tok takeIdentifier, manyWhile (sees "[") (one (dimension g false)) ]

/-- A method from its parameters on. -/
def methodFrom (start : List Element) : Parser Node :=
  build .methodDeclaration
    [ return start,
      one (delimited .parameters "(" ")" .comma (parameter g)),
      optional (sees "throws") (one (typeList g .throwsClause "throws")),
      optional (sees "default") (unsupported .annotationDefault),
      do if ← sees openBrace then one (block g) else tok (take ";") ]

/-- A name with parameters behind it. -/
def callAhead : Parser Bool := do
  if ← test isIdentifier then sees "(" 1 else return false

/-- A member behind its modifiers: a constructor, a method or a field. -/
def memberFrom (mods : List Element) : Parser Node := do
  let start ← parts [return mods, optional (sees "<") (one (typeParameters g))]
  if ← callAhead then
    let name ← tok takeIdentifier
    methodFrom g (start ++ name)
  else
    let type ← one (typeTree g true)
    if ← callAhead then
      let name ← tok takeIdentifier
      methodFrom g (start ++ type ++ name)
    else
      build .variableDeclaration
        [return start ++ type, one (declarators g), tok (take ";")]

/-- A block, perhaps a static one, is ahead. -/
def initializerAhead : Parser Bool := do
  if ← sees openBrace then return true
  else if ← sees "static" then sees openBrace 1
  else return false

/-- A member of a type. -/
def typeMember : Parser Node := do
  if ← sees ";" then empty
  else if ← initializerAhead then
    build .initializerBlock [optional (sees "static") (tok (take "static")), one (block g)]
  else
    let mods ← modifiers g
    if ← test (isOneOf ("@" :: typeKeywords)) then classDeclaration g mods
    else memberFrom g mods

/-- The package of a unit. -/
def packageClause : Parser Node :=
  build .packageClause [tok (take "package"), one (qualifiedName false), tok (take ";")]

/-- An import, of a type or of a static member, or of all of them. -/
def importClause : Parser Node :=
  build .importClause
    [ tok (take "import"), optional (sees "static") (tok (take "static")),
      one (qualifiedName true), tok (take ";") ]

/-- Something stands before the end. -/
def more : Parser Bool :=
  test fun token => token.kind != .eof

/-- A type declaration at the top of a unit, or a stray semicolon. -/
def topLevel : Parser Node := do
  if ← sees ";" then empty
  else
    let mods ← modifiers g
    classDeclaration g mods

/-- The token at the end, without a step past it. -/
def atEnd : Parser (List Element) := do
  let tokens ← get
  return [.token tokens.last.token]

/-- A whole unit. -/
def compilationUnit : Parser Node :=
  build .compilationUnit
    [ optional (sees "package") (one packageClause),
      manyWhile (sees "import") (one importClause),
      manyWhile more (one (topLevel g)),
      atEnd ]

end Codemod.Java.Grammar
