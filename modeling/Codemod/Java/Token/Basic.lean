import Codemod.Text.Alphabetic
import Codemod.Tree.Basic

/-!
The vocabulary of Java's tokens, and a tokenized text.
-/

namespace Codemod.Java

open Codemod.Tree

/-- The words that are no identifiers. The literals `true`, `false` and `null` are not among
them. -/
def keywords : List String :=
  [ "abstract", "assert", "boolean", "break", "byte", "case", "catch", "char", "class",
    "const", "continue", "default", "do", "double", "else", "enum", "extends", "final",
    "finally", "float", "for", "goto", "if", "implements", "import", "instanceof", "int",
    "interface", "long", "native", "new", "package", "private", "protected", "public",
    "return", "short", "static", "strictfp", "super", "switch", "synchronized", "this",
    "throw", "throws", "transient", "try", "void", "volatile", "while" ]

/-- The word is a keyword. -/
def isKeyword (word : String) : Bool :=
  keywords.contains word

/-- The words that stand for a value and are no identifiers. -/
def wordLiterals : List String :=
  ["true", "false", "null"]

/-- The keywords that name a type, `void` included. -/
def primitives : List String :=
  ["boolean", "byte", "char", "short", "int", "long", "float", "double", "void"]

/-- The keywords that modify a declaration. -/
def modifierWords : List String :=
  [ "public", "protected", "private", "static", "final", "abstract", "native",
    "synchronized", "transient", "volatile", "strictfp", "default" ]

/-- The signs, longest first. A right shift is no sign: nested type arguments close one
bracket at a time. -/
def signs : List String :=
  [ "<<=", "...", "->", "::", "++", "--", "&&", "||", "==", "!=", "<=", ">=", "+=", "-=",
    "*=", "/=", "%=", "&=", "|=", "^=", "<<", "(", ")", "\x7b", "\x7d", "[", "]", ";", ",",
    ".", "@", "=", ">", "<", "!", "~", "?", ":", "+", "-", "*", "/", "&", "|", "^", "%" ]

/-- An identifier can start with the character. -/
def startsWord (c : Char) : Bool :=
  Text.isAlphabetic c || c == '_' || c == '$'

/-- An identifier can go on with the character. -/
def continuesWord (c : Char) : Bool :=
  Text.isAlphanumeric c || c == '_' || c == '$'

/-- What kind of token a word is. -/
def wordKind (word : String) : TokenKind :=
  if wordLiterals.contains word then .literal
  else if isKeyword word then .keyword
  else .identifier

/-- A token and the byte offset at which its text starts. -/
structure Lexed where
  token : Token
  offset : Nat
deriving DecidableEq, Repr

/-- A tokenized text: the tokens, and the one without text that holds the trivia behind the
last of them. -/
structure Tokens where
  ahead : List Lexed
  last : Lexed
deriving DecidableEq, Repr

namespace Tokens

/-- All tokens, the one at the end included. -/
def toList (tokens : Tokens) : List Lexed :=
  tokens.ahead ++ [tokens.last]

/-- The tokens with another one in front. -/
def cons (token : Lexed) (tokens : Tokens) : Tokens :=
  { tokens with ahead := token :: tokens.ahead }

end Tokens

end Codemod.Java
