import Codemod.Java.Grammar.Type

/-!
The grammar of expressions. Binary operators have no precedence here: they group to the
left.
-/

namespace Codemod.Java.Grammar

open Codemod.Tree Codemod.Java.Parser

/-- The signs that stand between two operands. -/
def binaryOperators : List String :=
  [ "+", "-", "*", "/", "%", "&&", "||", "==", "!=", "<", ">", "<=", ">=", "&", "|", "^",
    "<<", "=", "+=", "-=", "*=", "/=", "%=", "&=", "|=", "^=", "<<=" ]

/-- The signs that stand in front of an operand. -/
def prefixOperators : List String :=
  ["!", "~", "-", "+", "++", "--"]

/-- The token stands between two operands. -/
def isBinaryOperator (token : Token) : Bool :=
  token.kind == .punct && binaryOperators.contains token.text

/-- The token stands in front of an operand. -/
def isPrefixOperator (token : Token) : Bool :=
  token.kind == .punct && prefixOperators.contains token.text

/-- The token is a literal. -/
def isLiteral (token : Token) : Bool :=
  token.kind == .literal

/-- The token is a name, or a keyword that stands for an object. -/
def isName (token : Token) : Bool :=
  isIdentifier token || token.kind == .keyword && ["this", "super"].contains token.text

/-- The token can stand behind a dot. -/
def isMemberName (token : Token) : Bool :=
  isIdentifier token || isOneOf ["class", "this", "super"] token

/-- An operand that can be cast to a class starts with the token. -/
def startsOperand (token : Token) : Bool :=
  isIdentifier token || isLiteral token || isOneOf ["(", "this", "new", "super", "!", "~"] token

/-- The token directly follows the one before it and is this sign. -/
def isAdjacent (text : String) (token : Token) : Bool :=
  isSign token text && token.lead.isEmpty

/-- A binary operator. The signs of a right shift are separate tokens with nothing between
them. -/
def binaryOperator : Parser (List Element) := do
  if ← sees ">" then
    parts
      [ tok (take ">"),
        manyWhile (test (isAdjacent ">")) (tok (take ">")),
        optional (test (isAdjacent ">=")) (tok (take ">=")) ]
  else tok (takeIf isBinaryOperator .expression)

variable (g : Grammar)

/-- The arguments of a call. -/
def arguments : Parser Node :=
  delimited .arguments "(" ")" .comma (g .expression)

/-- An expression in parentheses. -/
def parenthesized : Parser Node :=
  build .parenthesized [tok (take "("), one (g .expression), tok (take ")")]

/-- The values of an array. -/
def arrayInit : Parser Node :=
  delimited .arrayInit openBrace closeBrace .comma do
    if ← sees openBrace then g .arrayInit else g .expression

/-- Brackets; with a size between them where `sized` allows one. -/
def dimension (sized : Bool) : Parser Node :=
  build .dimension
    [ tok (take "["),
      if sized then optional (return !(← sees "]")) (one (g .expression)) else return [],
      tok (take "]") ]

/-- The members of a class. -/
def classBody : Parser Node :=
  build .classBody
    [ tok (take openBrace), manyWhile (return !(← sees closeBrace)) (one (g .member)),
      tok (take closeBrace) ]

/-- The creation of an array or an object. -/
def creation : Parser Node := do
  let start ← parts [tok (take "new"), one (typeTree g false)]
  if ← sees "[" then
    build .newArray
      [ return start, manyWhile (sees "[") (one (dimension g true)),
        optional (sees openBrace) (one (arrayInit g)) ]
  else
    build .newClass
      [return start, one (arguments g), optional (sees openBrace) (one (classBody g))]

/-- A name by itself or with arguments. -/
def nameOrCall : Parser Node := do
  let name := tok (takeIf isName .expression)
  if ← sees "(" 1 then build .methodInvocation [name, one (arguments g)]
  else build .identifier [name]

/-- An operand without operators. -/
def primary : Parser Node := do
  if ← test isLiteral then build .literal [tok (takeIf isLiteral .expression)]
  else if ← test isName then nameOrCall g
  else if ← sees "new" then creation g
  else if ← test isPrimitive then typeTree g true
  else if ← sees "(" then parenthesized g
  else if ← sees openBrace then arrayInit g
  else expected .expression

/-- A member of what stands in front of the dot: a field or a call. -/
def member (operand : Node) : Parser Node := do
  let dot ← take "."
  if ← test (isOneOf ["new", "<"]) then unsupported .qualifiedCreation
  else
    let start : Parser (List Element) := return [.node operand, .token dot]
    let name := tok (takeIf isMemberName .memberName)
    if ← sees "(" 1 then build .methodInvocation [start, name, one (arguments g)]
    else build .fieldAccess [start, name]

/-- What can follow an operand, once. -/
def postfixStep (operand : Node) : Parser (Node × Bool) := do
  let start : Parser (List Element) := return [.node operand]
  if ← sees "->" then unsupported .lambda
  else if ← sees "::" then unsupported .methodReference
  else if ← sees "." then return (← member g operand, true)
  else if ← sees "[" then
    let access ← build .arrayAccess [start, tok (take "["), one (g .expression), tok (take "]")]
    return (access, true)
  else if ← test (isOneOf ["++", "--"]) then
    return (← build .unary [start, tok (takeIf (isOneOf ["++", "--"]) .expression)], true)
  else return (operand, false)

/-- A type in parentheses with an operand behind it, seen from the opening one. -/
def castAhead : Parser Bool :=
  foresee do
    let _ ← take "("
    let primitive ← test isPrimitive
    let _ ← typeTree g true
    let _ ← take ")"
    if primitive then return true else test startsOperand

/-- An operand with the operators in front of it and behind it. -/
def unary : Parser Node := do
  if ← test isPrefixOperator then
    build .unary [tok (takeIf isPrefixOperator .expression), one (g .unary)]
  else if ← castAhead g then
    build .cast [tok (take "("), one (g .type), tok (take ")"), one (g .unary)]
  else
    let operand ← primary g
    iterate (postfixStep g) operand

/-- What can follow a left operand, once; a conditional ends the expression. -/
def operatorStep (left : Node) : Parser (Node × Bool) := do
  let start : Parser (List Element) := return [.node left]
  if ← sees "?" then
    let choice ← build .conditional
      [start, tok (take "?"), one (g .expression), tok (take ":"), one (g .expression)]
    return (choice, false)
  else if ← sees "instanceof" then
    return (← build .binary [start, tok (take "instanceof"), one (g .type)], true)
  else if ← test isBinaryOperator then
    return (← build .binary [start, binaryOperator, one (unary g)], true)
  else return (left, false)

/-- Operands with operators between them. -/
def expression : Parser Node := do
  let left ← unary g
  iterate (operatorStep g) left

end Codemod.Java.Grammar
