import Codemod.Java.Token.Scan

/-!
Parsers over a tokenized text. The token at the end is never taken, so a parser cannot run
past it, and each parser leaves a rest of the tokens that it was given.
-/

namespace Codemod.Java

open Codemod.Tree

/-- A step that takes tokens from the front and makes a value of them, or fails. -/
abbrev Parser := StateT Tokens (Except ParseError)

/-- The token is this sign or keyword. -/
def isSign (token : Token) (text : String) : Bool :=
  (token.kind == .punct || token.kind == .keyword) && token.text == text

/-- The token is one of these signs or keywords. -/
def isOneOf (texts : List String) (token : Token) : Bool :=
  texts.any (isSign token)

/-- The token is an identifier. -/
def isIdentifier (token : Token) : Bool :=
  token.kind == .identifier

/-- The token is a keyword that names a type. -/
def isPrimitive (token : Token) : Bool :=
  token.kind == .keyword && primitives.contains token.text

namespace Tokens

/-- The token in front, that at the end included. -/
def front (tokens : Tokens) : Lexed :=
  tokens.ahead.headD tokens.last

/-- The token `n` places behind the one in front; behind the last one there is only it. -/
def nth (tokens : Tokens) (n : Nat) : Token :=
  (tokens.ahead[n]?.getD tokens.last).token

end Tokens

namespace Parser

/-- The token `n` places ahead passes the test. -/
def test (p : Token → Bool) (n : Nat := 0) : Parser Bool := do
  let tokens ← get
  return p (tokens.nth n)

/-- The token `n` places ahead is this sign or keyword. -/
def sees (text : String) (n : Nat := 0) : Parser Bool :=
  test (isSign · text) n

/-- Fails at the place of the token in front. -/
def fail {α : Type} (error : Nat → ParseError) : Parser α := do
  let tokens ← get
  throw (error tokens.front.offset)

/-- Fails because of a construct that is not supported. -/
def unsupported {α : Type} (construct : Construct) : Parser α :=
  fail (.unsupported construct)

/-- Fails because something else was asked for. -/
def expected {α : Type} (wanted : Wanted) : Parser α := do
  let tokens ← get
  let found := tokens.ahead.head?.map fun lexed => lexed.token.text
  throw (.expected wanted found tokens.front.offset)

/-- Takes the token in front if it passes the test. -/
def takeIf (p : Token → Bool) (wanted : Wanted) : Parser Token := do
  let tokens ← get
  match tokens.ahead with
  | lexed :: rest =>
      if p lexed.token then
        set { tokens with ahead := rest }
        return lexed.token
      else expected wanted
  | [] => expected wanted

/-- Takes this sign or keyword. -/
def take (text : String) : Parser Token :=
  takeIf (isSign · text) (.sign text)

/-- Takes an identifier. -/
def takeIdentifier : Parser Token :=
  takeIf isIdentifier .identifier

/-- What the probe says, with no token taken; a probe that fails says no. -/
def foresee (probe : Parser Bool) : Parser Bool := fun tokens =>
  match probe tokens with
  | .ok (answer, _) => .ok (answer, tokens)
  | .error _ => .ok (false, tokens)

/-- Repeats a step on a value at most `limit` times, while it asks for more. -/
def repeatWithin {α : Type} (step : α → Parser (α × Bool)) : Nat → α → Parser α
  | 0, _ => fail .stalled
  | limit + 1, a => do
      let (a, more) ← step a
      if more then repeatWithin step limit a else return a

/-- Repeats a step on a value while it asks for more, which it does only when it took a
token. -/
def iterate {α : Type} (step : α → Parser (α × Bool)) (a : α) : Parser α := do
  let tokens ← get
  repeatWithin step (tokens.ahead.length + 1) a

/-- Adds what one more item gives if the test says that there is one. -/
def manyStep (more : Parser Bool) (item : Parser (List Element)) (done : List Element) :
    Parser (List Element × Bool) := do
  if ← more then
    let next ← item
    return (done ++ next, true)
  else return (done, false)

/-- Collects what the items give while the test says that there are more. -/
def manyWhile (more : Parser Bool) (item : Parser (List Element)) : Parser (List Element) :=
  iterate (manyStep more item) []

/-- What the part gives if the test says that it is there, else nothing. -/
def optional (present : Parser Bool) (part : Parser (List Element)) : Parser (List Element) := do
  if ← present then part else return []

/-- The parser's node as the only child. -/
def one (p : Parser Node) : Parser (List Element) := do
  let n ← p
  return [.node n]

/-- The parser's token as the only child. -/
def tok (p : Parser Token) : Parser (List Element) := do
  let t ← p
  return [.token t]

/-- What the parts give, in order. -/
def parts : List (Parser (List Element)) → Parser (List Element)
  | [] => return []
  | p :: ps => do
      let first ← p
      let others ← parts ps
      return first ++ others

/-- A node of the kind whose children the parts give. -/
def build (kind : Kind) (ps : List (Parser (List Element))) : Parser Node := do
  let children ← parts ps
  return Node.hoisted (.java kind) children

end Parser

/-- The item with the delimiter that ends its list. -/
def closedBy (item : Node) (delimiter : Delimiter) (token : Token) : Node :=
  { item with markers := item.markers.put ⟨delimiter.marker, token.lead⟩ }

/-- The item with the spacing in front of the separator that follows it. -/
def spacedBy (item : Node) (token : Token) : Node :=
  { item with markers := item.markers.put ⟨.separator, token.lead⟩ }

/-- The items of a list with their separators, the last one's as a trailing delimiter. -/
def withSeparators (delimiter : Delimiter) : List (Node × Option Token) → List Node
  | [] => []
  | (item, none) :: rest => item :: withSeparators delimiter rest
  | [(item, some token)] => [closedBy item delimiter token]
  | (item, some token) :: rest => spacedBy item token :: withSeparators delimiter rest

namespace Parser

/-- Takes one more item with the separator behind it. The list goes on behind a separator. -/
def itemStep (delimiter : Delimiter) (stop : Parser Bool) (item : Parser Node)
    (done : List (Node × Option Token)) : Parser (List (Node × Option Token) × Bool) := do
  if ← stop then return (done, false)
  else
    let node ← item
    if ← sees delimiter.text then
      let token ← take delimiter.text
      return (done ++ [(node, some token)], true)
    else return (done ++ [(node, none)], false)

/-- Items with a separator behind each but the last, which may have one too. The list ends
where the test says so, or behind an item without separator. -/
def separated (delimiter : Delimiter) (stop : Parser Bool) (item : Parser Node) :
    Parser (List Node) := do
  let items ← iterate (itemStep delimiter stop item) []
  return withSeparators delimiter items

/-- Items with commas between them, at least one. -/
def commaList (item : Parser Node) : Parser (List Element) := do
  let items ← separated .comma (pure false) item
  return items.map .node

/-- A list of items between two signs. -/
def delimited (kind : Kind) (opening closing : String) (delimiter : Delimiter)
    (item : Parser Node) : Parser Node :=
  build kind
    [ tok (take opening),
      do
        let items ← separated delimiter (sees closing) item
        return items.map .node,
      tok (take closing) ]

end Parser

/-- The constructs that hold themselves. -/
inductive Symbol where
  | type
  | expression
  | unary
  | arrayInit
  | statement
  | member
deriving DecidableEq, Repr

/-- How each of these constructs is parsed where it stands inside another. -/
abbrev Grammar := Symbol → Parser Node

end Codemod.Java
