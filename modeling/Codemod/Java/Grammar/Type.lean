import Codemod.Java.Parser.Basic

/-!
The grammar of names and types.
-/

namespace Codemod.Java.Grammar

open Codemod.Tree Codemod.Java.Parser

/-- The sign that opens a body or an array's values. -/
def openBrace : String :=
  "\x7b"

/-- The sign that closes a body or an array's values. -/
def closeBrace : String :=
  "\x7d"

/-- A dot with a token that passes the test behind it. -/
def dotThen (p : Token → Bool) : Parser Bool := do
  if ← sees "." then test p 1 else return false

/-- Names behind a first one, each with its dot. -/
def furtherNames : Parser (List Element) :=
  manyWhile (dotThen isIdentifier) (parts [tok (take "."), tok takeIdentifier])

/-- Names with dots between them; an import may end in an asterisk. -/
def qualifiedName (allowStar : Bool) : Parser Node :=
  build .qualifiedName
    [ tok takeIdentifier,
      furtherNames,
      if allowStar then
        optional (dotThen (isSign · "*")) (parts [tok (take "."), tok (take "*")])
      else return [] ]

variable (g : Grammar)

/-- An unknown type, perhaps with a bound. -/
def wildcard : Parser Node :=
  build .typeTree
    [ tok (take "?"),
      optional (test (isOneOf ["extends", "super"]))
        (parts [tok (takeIf (isOneOf ["extends", "super"]) (.sign "extends")), one (g .type)]) ]

/-- The types between angle brackets. -/
def typeArguments : Parser Node :=
  delimited .typeArguments "<" ">" .comma (g .type)

/-- A primitive type, or a name with type arguments. -/
def elementType : Parser (List Element) := do
  if ← test isPrimitive then tok (takeIf isPrimitive .identifier)
  else parts [tok takeIdentifier, furtherNames, optional (sees "<") (one (typeArguments g))]

/-- An opening bracket that the closing one follows. -/
def emptyBrackets : Parser Bool := do
  if ← sees "[" then sees "]" 1 else return false

/-- A type; its brackets belong to it where `dimensions` says so. -/
def typeTree (dimensions : Bool) : Parser Node := do
  if ← sees "?" then wildcard g
  else
    build .typeTree
      [ elementType g,
        if dimensions then manyWhile emptyBrackets (parts [tok (take "["), tok (take "]")])
        else return [] ]

/-- A keyword with types behind it. -/
def typeList (kind : Kind) (keyword : String) : Parser Node :=
  build kind [tok (take keyword), commaList (g .type)]

/-- A type parameter with its bounds. -/
def typeParameter : Parser Node :=
  build .typeParameter
    [ tok takeIdentifier,
      optional (sees "extends")
        (parts
          [ tok (take "extends"), one (g .type),
            manyWhile (sees "&") (parts [tok (take "&"), one (g .type)]) ]) ]

/-- The type parameters of a declaration. -/
def typeParameters : Parser Node :=
  delimited .typeParameters "<" ">" .comma (typeParameter g)

end Codemod.Java.Grammar
